import Rrflow.Store.KeyCodec

/-!
Physical keys are a canonical, ordered image of addresses, families and tuples.

Reading accepts exactly what writing produces. Keys of one address, family and field
types are ordered as their fields are, field by field, and the keys that begin with
given fields are the byte strings of one interval: a range scan of the store reads
the rows of a group and nothing else.
-/

namespace Rrflow.Store

open List OrderCode KeyPart

open Octets (utf8)

theorem KeyFamily.tryFrom_eq_ok {byte : Byte} {family : KeyFamily} :
    KeyFamily.tryFrom byte = .ok family ↔ byte = family.toByte := by
  constructor
  · unfold KeyFamily.tryFrom
    split <;> intro h <;> cases h <;> exact Fin.ext ‹_›
  · rintro rfl
    cases family <;> rfl

namespace KeyCodec

def encodeHeader (header : KeyAddress × KeyFamily) : List Byte :=
  tagFormat :: (toBeBytes applicationFormat ++ (encodeOptionalText header.1.tenant ++
    (encodeOptionalText header.1.scope ++ [tagFamily, header.2.toByte])))

theorem encode_eq (address : KeyAddress) (family : KeyFamily) (parts : List KeyPart) :
    encode address family parts = encodeHeader (address, family) ++ parts.flatMap encodePart := by
  simp [encode, encodeHeader]

theorem reads_readHeader : readHeader.Reads encodeHeader := by
  rintro word ⟨⟨tenant, scope⟩, family⟩ rest
  simp only [readHeader, Reader.bind_eq_ok, expectTag_eq_ok, Reader.lift_eq_ok,
    Checks.ensure_eq_ok, reads_readU64Payload _ _ _ _, reads_readOptionalText _ _ _ _,
    reads_readByte _ _ _ _, KeyFamily.tryFrom_eq_ok, Reader.pure_eq_ok]
  constructor
  · rintro ⟨_, _, rfl, _, _, rfl, _, _, ⟨rfl, rfl⟩, _, _, rfl, _, _, rfl, _, _, rfl, _, _, rfl,
      _, _, ⟨rfl, rfl⟩, heq, rfl⟩
    cases heq
    simp [encodeHeader]
  · rintro rfl
    refine ⟨(), _, rfl, applicationFormat, _, append_assoc .., (), _, ⟨rfl, rfl⟩,
      tenant, _, append_assoc .., scope, _, append_assoc .., (), _, rfl,
      family.toByte, _, rfl, family, _, ⟨rfl, rfl⟩, rfl, rfl⟩

theorem decode_eq_ok {bytes : List Byte} {key : DecodedKey} :
    decode bytes = .ok key ↔ bytes = encode key.address key.family key.parts := by
  obtain ⟨address, family, parts⟩ := key
  rw [encode_eq, decode, Checks.bind_eq_ok]
  constructor
  · rintro ⟨⟨header, remaining⟩, hheader, hparts⟩
    obtain ⟨read, hread, hkey⟩ := Checks.bind_eq_ok.mp hparts
    cases hkey
    rw [(reads_readHeader _ _ _).mp hheader,
      (Reader.whole_eq_ok reads_readPart encodePart_ne_nil _).mp hread]
  · rintro rfl
    refine ⟨((address, family), _), reads_readHeader.read _ _, Checks.bind_eq_ok.mpr ⟨parts, ?_, rfl⟩⟩
    exact (Reader.whole_eq_ok reads_readPart encodePart_ne_nil _).mpr rfl

/-! ### The order of keys -/

inductive KeyPartType
  | bytes
  | text
  | bool
  | u8
  | u64
  | i64
  | descU64
  deriving DecidableEq

end KeyCodec

open KeyCodec

def KeyPart.type : KeyPart → KeyPartType
  | .bytes _ => .bytes
  | .text _ => .text
  | .bool _ => .bool
  | .u8 _ => .u8
  | .u64 _ => .u64
  | .i64 _ => .i64
  | .descU64 _ => .descU64

/-- Fields of one type are compared by their values: byte strings and texts bytewise,
numbers ascending, descending numbers the other way. -/
def KeyPart.Lt : KeyPart → KeyPart → Prop
  | .bytes a, .bytes b => a < b
  | .text a, .text b => utf8 a < utf8 b
  | .bool a, .bool b => a < b
  | .u8 a, .u8 b => a < b
  | .u64 a, .u64 b => a < b
  | .i64 a, .i64 b => a < b
  | .descU64 a, .descU64 b => b < a
  | _, _ => False

namespace KeyCodec

theorem xor_signBit (value : UInt64) :
    (value ^^^ signBit).toNat = (value.toNat + 2 ^ 63) % 2 ^ 64 := by
  have hlow : ∀ n < 2 ^ 63, n ^^^ 2 ^ 63 = n + 2 ^ 63 := by
    intro n hn
    have hor := Nat.shiftLeft_add_eq_or_of_lt hn 1
    rw [Nat.shiftLeft_eq, Nat.one_mul, Nat.or_comm] at hor
    rw [Nat.add_comm, hor]
    apply Nat.eq_of_testBit_eq
    intro i
    rw [Nat.testBit_xor, Nat.testBit_or, Nat.testBit_two_pow]
    by_cases hi : 63 = i
    · subst hi
      rw [Nat.testBit_lt_two_pow hn]
      rfl
    · simp [hi]
  have hsign : signBit.toNat = 2 ^ 63 := rfl
  have hbound := value.toNat_lt
  rw [UInt64.toNat_xor, hsign]
  by_cases hn : value.toNat < 2 ^ 63
  · rw [hlow _ hn]
    omega
  · obtain ⟨n, hvalue⟩ : ∃ n, value.toNat = n + 2 ^ 63 := ⟨value.toNat - 2 ^ 63, by omega⟩
    rw [hvalue, ← hlow n (by omega), Nat.xor_assoc, Nat.xor_self, Nat.xor_zero, hlow n (by omega)]
    omega

/-- With the sign bit flipped, signed numbers are ordered as unsigned ones. -/
theorem xor_signBit_lt {a b : Int64} : a.toUInt64 ^^^ signBit < b.toUInt64 ^^^ signBit ↔ a < b := by
  have hnat : ∀ c : Int64, c.toUInt64.toNat = c.toBitVec.toNat := fun _ => rfl
  have ha := a.toBitVec.isLt
  have hb := b.toBitVec.isLt
  rw [UInt64.lt_iff_toNat_lt, Int64.lt_iff_toInt_lt, Int64.toInt, Int64.toInt,
    BitVec.toInt_eq_toNat_cond, BitVec.toInt_eq_toNat_cond, xor_signBit, xor_signBit, hnat, hnat]
  split <;> split <;> omega

theorem not_lt_not {a b : UInt64} : ~~~a < ~~~b ↔ b < a := by
  have ha := a.toNat_lt
  have hb := b.toNat_lt
  rw [UInt64.lt_iff_toNat_lt, UInt64.lt_iff_toNat_lt, UInt64.toNat_not, UInt64.toNat_not,
    UInt64.size]
  omega

theorem toBeBytes_lt {a b : UInt64} : toBeBytes a < toBeBytes b ↔ a < b := by
  rw [toBeBytes, toBeBytes, Octets.bigEndian_lt_iff a.toNat_lt b.toNat_lt, UInt64.lt_iff_toNat_lt]

theorem toBeBytes_inj {a b : UInt64} : toBeBytes a = toBeBytes b ↔ a = b := by
  refine ⟨fun h => ?_, fun h => by rw [h]⟩
  have hnil : toBeBytes a ++ [] = toBeBytes b ++ [] := by rw [h]
  exact ((reads_readU64Payload "").cancel hnil).1

theorem encodeMemcomparable_eq (value : List Byte) :
    encodeMemcomparable value = group 8 mark (value.take 8) ++
      if value.length < 8 then [] else encodeMemcomparable (value.drop 8) := by
  by_cases hlast : value.length < 8
  · rw [encodeMemcomparable_last hlast, if_pos hlast, take_of_length_le hlast.le, append_nil]
  · rw [if_neg hlast, ← encodeMemcomparable_full (by rw [length_take]; omega), take_append_drop]

/-- Byte strings of any length are compared through their groups. -/
theorem lexical_encodeMemcomparable (a b : List Byte) :
    OrderCode.Lexical (· < ·) encodeMemcomparable a b := by
  induction hn : a.length using Nat.strong_induction_on generalizing a b with
  | _ n ih =>
    intro s t
    have hmark : ∀ i j, i < j → j ≤ 8 → mark i < mark j := fun _ _ => mark_lt
    have ha : (a.take 8).length ≤ 8 := length_take_le 8 a
    have hb : (b.take 8).length ≤ 8 := length_take_le 8 b
    have hlength : (group 8 mark (a.take 8)).length = (group 8 mark (b.take 8)).length := by
      rw [length_group ha, length_group hb]
    have hsplit : a = b ↔ a.take 8 = b.take 8 ∧ a.drop 8 = b.drop 8 := by
      refine ⟨fun h => by rw [h]; exact ⟨rfl, rfl⟩, fun ⟨htake, hdrop⟩ => ?_⟩
      rw [← take_append_drop 8 a, htake, hdrop, take_append_drop]
    rw [encodeMemcomparable_eq a, encodeMemcomparable_eq b, append_assoc, append_assoc,
      append_lt_append_iff hlength, group_lt_group_iff hmark ha hb,
      group_inj hmark ha hb, hsplit]
    have hlt := lt_iff_take_drop 8 (u := a) (v := b)
    change _ ↔ a < b ∨ _
    by_cases htake : a.take 8 = b.take 8
    · -- equal first groups: both values go on or both end here
      have hboth : a.length < 8 ↔ b.length < 8 := by
        have hlen := congrArg List.length htake
        rw [length_take, length_take] at hlen
        omega
      by_cases hlast : a.length < 8
      · rw [if_pos hlast, if_pos (hboth.mp hlast), drop_eq_nil_of_le hlast.le,
          drop_eq_nil_of_le (hboth.mp hlast).le]
        rw [drop_eq_nil_of_le hlast.le, drop_eq_nil_of_le (hboth.mp hlast).le] at hlt
        simp [htake, hlt]
      · rw [if_neg hlast, if_neg (mt hboth.mpr hlast),
          ih (a.drop 8).length (by rw [length_drop]; omega) (a.drop 8) (b.drop 8) rfl]
        tauto
    · tauto

theorem encodePart_lexical {p q : KeyPart} (h : p.type = q.type) :
    OrderCode.Lexical KeyPart.Lt encodePart p q := by
  have hcons : ∀ {tag : Byte} {u v : List Byte}, tag :: u < tag :: v ↔ u < v := by
    intro tag u v
    rw [cons_lt_cons_iff]
    simp
  have hword : ∀ {tag : Byte} {u v : UInt64}, ∀ s t,
      tag :: toBeBytes u ++ s < tag :: toBeBytes v ++ t ↔ u < v ∨ (u = v ∧ s < t) := by
    intro tag u v s t
    rw [cons_append, cons_append, hcons, append_lt_append_iff (by simp [toBeBytes]),
      toBeBytes_lt, toBeBytes_inj]
  intro s t
  cases p <;> cases q <;> cases h
  case bytes.bytes a b =>
    rw [bytes.injEq]
    exact hcons.trans (lexical_encodeMemcomparable a b s t)
  case text.text a b =>
    rw [text.injEq, ← Octets.utf8_inj]
    exact hcons.trans (lexical_encodeMemcomparable _ _ s t)
  case bool.bool a b =>
    rw [bool.injEq]
    refine (hcons.trans cons_lt_cons_iff).trans ?_
    cases a <;> cases b <;> simp [KeyPart.Lt]
  case u8.u8 a b =>
    rw [u8.injEq]
    exact hcons.trans cons_lt_cons_iff
  case u64.u64 a b =>
    rw [u64.injEq]
    exact hword s t
  case i64.i64 a b =>
    have hinj : a.toUInt64 ^^^ signBit = b.toUInt64 ^^^ signBit ↔ a = b := by
      rw [← toInt64_xor_signBit, toInt64_xor_signBit.mpr rfl]
    rw [i64.injEq, ← hinj]
    exact (hword s t).trans (or_congr_left xor_signBit_lt)
  case descU64.descU64 a b =>
    rw [descU64.injEq, ← UInt64.not_inj]
    exact (hword s t).trans (or_congr_left not_lt_not)

theorem forall₂_lexical {p q : List KeyPart} (h : p.map type = q.map type) :
    List.Forall₂ (OrderCode.Lexical KeyPart.Lt encodePart) p q := by
  induction p generalizing q with
  | nil =>
    rw [map_nil, eq_comm, map_eq_nil_iff] at h
    rw [h]
    exact .nil
  | cons a p ih =>
    cases q with
    | nil => cases h
    | cons b q =>
      obtain ⟨hhead, htail⟩ := List.cons.inj h
      exact .cons (encodePart_lexical hhead) (ih htail)

/-- Keys of one address, family and field types are ordered as their fields are. -/
theorem encode_lt_encode {address : KeyAddress} {family : KeyFamily} {p q : List KeyPart}
    (h : p.map type = q.map type) :
    encode address family p < encode address family q ↔ List.Lex KeyPart.Lt p q := by
  have hlt := lexical_flatMap (forall₂_lexical h) [] []
  rw [append_nil, append_nil] at hlt
  rw [encode_eq, encode_eq, append_lt_append_iff rfl, hlt]
  simp

theorem prefixEndReversed_append (l : List Byte) (first : Byte) :
    prefixEndReversed (l ++ [first]) =
      match prefixEndReversed l with
      | some upper => some (upper ++ [first])
      | none => if first ≠ 255 then some [first + 1] else none := by
  induction l with
  | nil => rfl
  | cons last l ih =>
    rw [cons_append, prefixEndReversed, prefixEndReversed]
    split
    · rfl
    · exact ih

theorem prefixEnd_cons (first : Byte) (stem : List Byte) :
    prefixEnd (first :: stem) =
      match prefixEnd stem with
      | some upper => some (first :: upper)
      | none => if first ≠ 255 then some [first + 1] else none := by
  rw [prefixEnd, prefixEnd, reverse_cons, prefixEndReversed_append]
  cases prefixEndReversed stem.reverse with
  | some upper => simp
  | none =>
    by_cases hfirst : first = 255 <;> simp [hfirst]

/-- Nothing lies above a word of largest bytes but what begins with it. -/
theorem le_iff_isPrefix_of_prefixEnd_eq_none {stem word : List Byte} (h : prefixEnd stem = none) :
    stem ≤ word ↔ stem <+: word := by
  induction stem generalizing word with
  | nil => exact iff_of_true (not_lt.mp (not_lt_nil _)) nil_prefix
  | cons first stem ih =>
    rw [prefixEnd_cons] at h
    split at h
    · cases h
    next hstem =>
      have hfirst : first = 255 := by
        by_contra hne
        rw [if_pos hne] at h
        cases h
      cases word with
      | nil => simp
      | cons byte word =>
        have hmax : byte < first ∨ first = byte := by
          rw [hfirst, eq_comm, ← le_iff_lt_or_eq]
          exact Fin.le_last byte
        rw [← not_lt, cons_lt_cons_iff, cons_prefix_cons, ← ih hstem, ← not_lt]
        have hirrefl : byte < first → first ≠ byte := fun hlt => (ne_of_lt hlt).symm
        tauto

/-- The words from a word up to its end bound are those that begin with it. -/
theorem inInterval_iff_isPrefix {stem upper word : List Byte} (h : prefixEnd stem = some upper) :
    stem ≤ word ∧ word < upper ↔ stem <+: word := by
  induction stem generalizing upper word with
  | nil => cases h
  | cons first stem ih =>
    rw [prefixEnd_cons] at h
    cases word with
    | nil => simp [← not_lt]
    | cons byte word =>
      rw [← not_lt, cons_lt_cons_iff, cons_prefix_cons]
      split at h
      next above habove =>
        cases h
        rw [cons_lt_cons_iff, ← ih habove, ← not_lt]
        rcases lt_trichotomy byte first with hlt | rfl | hgt
        · simp [hlt, hlt.ne']
        · simp
        · simp [hgt.not_gt, hgt.ne, hgt.ne']
      next hnone =>
        -- the last byte that is not the largest was raised by one
        have hfirst : first ≠ 255 := by
          rintro rfl
          cases h
        rw [if_pos hfirst] at h
        cases h
        have hsucc : byte < first + 1 ↔ byte ≤ first := by
          have hval : (first + 1).val = first.val + 1 := by
            have hlt := first.isLt
            have hne : first.val ≠ 255 := fun hval => hfirst (Fin.ext hval)
            rw [Fin.val_add]
            exact Nat.mod_eq_of_lt (by rw [Fin.val_one]; omega)
          rw [Fin.lt_def, Fin.le_def, hval]
          omega
        rw [cons_lt_cons_iff, hsucc, ← le_iff_isPrefix_of_prefixEnd_eq_none hnone, ← not_lt]
        rcases lt_trichotomy byte first with hlt | rfl | hgt
        · simp [hlt, hlt.ne']
        · simp
        · simp [hgt.not_ge, hgt.ne, not_lt_nil]

theorem exists_prefixEnd (address : KeyAddress) (family : KeyFamily) (parts : List KeyPart) :
    ∃ upper, prefixEnd (encode address family parts) = some upper := by
  rw [encode_eq, encodeHeader, cons_append, prefixEnd_cons]
  split
  · exact ⟨_, rfl⟩
  · exact ⟨_, if_pos (by decide)⟩

/-- A key begins with the bytes of given fields if it begins with these fields. -/
theorem encode_isPrefix_encode {address address' : KeyAddress} {family family' : KeyFamily}
    {leading parts : List KeyPart} :
    encode address family leading <+: encode address' family' parts ↔
      address' = address ∧ family' = family ∧ leading <+: parts := by
  rw [encode_eq, encode_eq]
  constructor
  · rintro ⟨rest, hrest⟩
    rw [append_assoc] at hrest
    obtain ⟨hheader, hparts⟩ := reads_readHeader.cancel hrest
    cases hheader
    exact ⟨rfl, rfl, (reads_readPart.isPrefix_flatMap encodePart_ne_nil).mp ⟨rest, hparts⟩⟩
  · rintro ⟨rfl, rfl, hparts⟩
    exact (prefix_append_right_inj _).mpr
      ((reads_readPart.isPrefix_flatMap encodePart_ne_nil).mpr hparts)

/-- The key codec is a canonical order embedding whose prefixes are intervals. -/
theorem keyCodec_order_embedding :
    (∀ address family parts, decode (encode address family parts) = .ok ⟨address, family, parts⟩) ∧
    (∀ bytes key, decode bytes = .ok key → encode key.address key.family key.parts = bytes) ∧
    (∀ address family parts parts', parts.map type = parts'.map type →
      (encode address family parts < encode address family parts' ↔
        List.Lex KeyPart.Lt parts parts')) ∧
    ∀ address family leading, ∃ upper,
      prefixEnd (encode address family leading) = some upper ∧
      ∀ bytes key, decode bytes = .ok key →
        (encode address family leading ≤ bytes ∧ bytes < upper ↔
          key.address = address ∧ key.family = family ∧ leading <+: key.parts) := by
  refine ⟨fun address family parts => decode_eq_ok.mpr rfl, fun bytes key h =>
    (decode_eq_ok.mp h).symm, fun address family parts parts' => encode_lt_encode,
    fun address family leading => ?_⟩
  obtain ⟨upper, hupper⟩ := exists_prefixEnd address family leading
  refine ⟨upper, hupper, fun bytes key h => ?_⟩
  rw [inInterval_iff_isPrefix hupper, decode_eq_ok.mp h, encode_isPrefix_encode]

/-- Of one subject, the newer version stands first; a longer subject stands behind. -/
theorem keyCodec_order_embedding_versions :
    encode ⟨none, some "estate"⟩ .temporal [.text "a", .descU64 10] <
        encode ⟨none, some "estate"⟩ .temporal [.text "a", .descU64 9] ∧
      encode ⟨none, some "estate"⟩ .temporal [.text "a", .descU64 9] <
        encode ⟨none, some "estate"⟩ .temporal [.text "aa", .descU64 10] ∧
      decode (encode ⟨none, some "estate"⟩ .temporal [.text "a", .descU64 9]) =
        .ok ⟨⟨none, some "estate"⟩, .temporal, [.text "a", .descU64 9]⟩ := by
  have hversion : KeyPart.Lt (.descU64 10) (.descU64 9) := by
    change (9 : UInt64) < 10
    decide
  have hsubject : KeyPart.Lt (.text "a") (.text "aa") := by
    change utf8 "a" < utf8 "aa"
    decide +kernel
  exact ⟨(keyCodec_order_embedding.2.2.1 _ _ _ _ (by rfl)).mpr (.cons (.rel hversion)),
    (keyCodec_order_embedding.2.2.1 _ _ _ _ (by rfl)).mpr (.rel hsubject),
    keyCodec_order_embedding.1 _ _ _⟩

end KeyCodec

end Rrflow.Store

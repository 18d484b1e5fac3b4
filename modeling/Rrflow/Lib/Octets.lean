import Rrflow.Lib.OrderCode

/-!
Byte strings: slices by position, big-endian numbers and the bytes of texts.

Formats with fixed fields are written as a concatenation and read back by slices.
The slice lemmas find the field of a concatenation that a slice lies in; their
side conditions compare lengths and are closed by arithmetic.
-/

namespace Octets

open List

/-- The elements at positions `start` up to, not including, `stop`. -/
def slice {α : Type} (start stop : Nat) (l : List α) : List α := (l.drop start).take (stop - start)

section Slice

variable {α : Type}

variable {start stop : Nat}

theorem slice_append_of_le {l₁ l₂ : List α} (h : stop ≤ l₁.length) :
    slice start stop (l₁ ++ l₂) = slice start stop l₁ := by
  unfold slice
  by_cases hstart : start ≤ l₁.length
  · rw [drop_append_of_le_length hstart, take_append_of_le_length]
    rw [length_drop]
    omega
  · rw [show stop - start = 0 by omega, take_zero, take_zero]

theorem slice_append_of_ge {l₁ l₂ : List α} (h : l₁.length ≤ start) :
    slice start stop (l₁ ++ l₂) = slice (start - l₁.length) (stop - l₁.length) l₂ := by
  unfold slice
  rw [drop_append, drop_eq_nil_of_le h, nil_append]
  congr 1
  omega

theorem slice_self {stop : Nat} {l : List α} (h : l.length ≤ stop) : slice 0 stop l = l := by
  unfold slice
  rw [drop_zero, Nat.sub_zero, take_of_length_le h]

theorem slice_middle {l₁ l₂ l₃ : List α} (hstart : start = l₁.length)
    (hstop : stop = l₁.length + l₂.length) : slice start stop (l₁ ++ l₂ ++ l₃) = l₂ := by
  rw [slice_append_of_le (by rw [length_append]; omega), slice_append_of_ge (by omega),
    hstart, Nat.sub_self, slice_self (by omega)]

end Slice

/-- The literals of bytes share this proof. -/
instance neZero : NeZero 256 := ⟨by decide⟩

/-- The last `width` base-256 digits of a number, most significant first. -/
def bigEndian : Nat → Nat → List (Fin 256)
  | 0, _ => []
  | width + 1, n => bigEndian width (n / 256) ++ [Fin.ofNat 256 n]

variable (bytes : List (Fin 256))

def ofBigEndian : Nat :=
  bytes.foldl (fun n (byte : Fin 256) => n * 256 + byte.val) 0

@[simp] theorem length_bigEndian (width n : Nat) : (bigEndian width n).length = width := by
  induction width generalizing n with
  | zero => rfl
  | succ width ih => rw [bigEndian, length_append, ih, length_singleton]

theorem ofBigEndian_bigEndian {width n : Nat} (h : n < 256 ^ width) :
    ofBigEndian (bigEndian width n) = n := by
  induction width generalizing n with
  | zero =>
    rw [Nat.pow_zero] at h
    rw [show n = 0 by omega]
    rfl
  | succ width ih =>
    have hdiv : n / 256 < 256 ^ width := by
      rw [Nat.div_lt_iff_lt_mul (by omega)]
      rwa [Nat.pow_succ] at h
    rw [bigEndian, ofBigEndian, foldl_append]
    change ofBigEndian (bigEndian width (n / 256)) * 256 + (n % 256) = n
    rw [ih hdiv]
    omega

theorem ofBigEndian_append_singleton (byte : Fin 256) :
    ofBigEndian (bytes ++ [byte]) = ofBigEndian bytes * 256 + byte.val := by
  rw [ofBigEndian, foldl_append]
  rfl

theorem bigEndian_ofBigEndian : bigEndian bytes.length (ofBigEndian bytes) = bytes := by
  induction bytes using List.reverseRecOn with
  | nil => rfl
  | append_singleton bytes byte ih =>
    have hdiv : (ofBigEndian bytes * 256 + byte.val) / 256 = ofBigEndian bytes := by omega
    have hmod : Fin.ofNat 256 (ofBigEndian bytes * 256 + byte.val) = byte := by
      apply Fin.ext
      rw [Fin.val_ofNat]
      omega
    rw [length_append, length_singleton, ofBigEndian_append_singleton, bigEndian, hdiv, hmod, ih]

theorem ofBigEndian_lt : ofBigEndian bytes < 256 ^ bytes.length := by
  induction bytes using List.reverseRecOn with
  | nil => simp [ofBigEndian]
  | append_singleton bytes byte ih =>
    rw [ofBigEndian_append_singleton, length_append, length_singleton, Nat.pow_succ]
    omega

theorem bigEndian_lt_iff {width m n : Nat} (hm : m < 256 ^ width) (hn : n < 256 ^ width) :
    bigEndian width m < bigEndian width n ↔ m < n := by
  induction width generalizing m n with
  | zero =>
    rw [Nat.pow_zero] at hm hn
    simp [bigEndian, show m = 0 by omega, show n = 0 by omega]
  | succ width ih =>
    have hdiv : ∀ k, k < 256 ^ (width + 1) → k / 256 < 256 ^ width := by
      intro k hk
      rw [Nat.div_lt_iff_lt_mul (by omega)]
      rwa [Nat.pow_succ] at hk
    have hdigits : bigEndian width (m / 256) = bigEndian width (n / 256) ↔ m / 256 = n / 256 := by
      refine ⟨fun h => ?_, fun h => by rw [h]⟩
      rw [← ofBigEndian_bigEndian (hdiv m hm), h, ofBigEndian_bigEndian (hdiv n hn)]
    have hlast : [Fin.ofNat 256 m] < [Fin.ofNat 256 n] ↔ m % 256 < n % 256 := by
      rw [cons_lt_cons_iff]
      simp [Fin.lt_def]
    rw [bigEndian, bigEndian, OrderCode.append_lt_append_iff (by simp), ih (hdiv m hm) (hdiv n hn),
      hdigits, hlast]
    omega

def utf8 (text : String) : List (Fin 256) := text.toUTF8.data.toList.map UInt8.toFin

/-- The text with the given UTF-8 bytes, if there is one. -/
def fromUtf8 : Option String :=
  String.fromUTF8? ⟨(bytes.map UInt8.ofFin).toArray⟩

theorem toFin_ofFin_map : (bytes.map UInt8.ofFin).map UInt8.toFin = bytes := by
  simp [map_map, Function.comp_def]

theorem ofFin_toFin_map (bytes : List UInt8) : (bytes.map UInt8.toFin).map UInt8.ofFin = bytes := by
  simp [map_map, Function.comp_def]

theorem fromUtf8_eq_some {bytes : List (Fin 256)} {text : String} :
    fromUtf8 bytes = some text ↔ bytes = utf8 text := by
  unfold fromUtf8 String.fromUTF8? utf8
  constructor
  · intro h
    split at h
    · cases h
      exact (toFin_ofFin_map bytes).symm
    · cases h
  · rintro rfl
    have hbytes : (⟨((text.toUTF8.data.toList.map UInt8.toFin).map UInt8.ofFin).toArray⟩ :
        ByteArray) = text.toUTF8 := by
      rw [ofFin_toFin_map]
    rw [dif_pos (by rw [hbytes]; exact text.isValidUTF8), Option.some.injEq,
      ← String.toByteArray_inj]
    exact hbytes

theorem utf8_inj {first second : String} : utf8 first = utf8 second ↔ first = second := by
  refine ⟨fun h => ?_, fun h => by rw [h]⟩
  rw [← Option.some.injEq, ← fromUtf8_eq_some.mpr h, fromUtf8_eq_some.mpr rfl]

def charBytes (c : Char) : List (Fin 256) := (String.utf8EncodeChar c).map UInt8.toFin

theorem utf8_eq_flatMap (text : String) : utf8 text = text.toList.flatMap charBytes := by
  have hencode : text.toUTF8 = text.toList.utf8Encode := String.utf8Encode_toList.symm
  rw [utf8, hencode, List.utf8Encode]
  simp only [data_toByteArray, map_flatMap]
  rfl

/-- The leading byte of a longer character is greater, and of characters of one length
the digits decide. -/
theorem charBytes_lt {c d : Char} (h : c < d) (s t : List (Fin 256)) :
    charBytes c ++ s < charBytes d ++ t := by
  have hbyte : ∀ n, (UInt8.ofNat n).toFin.val = n % 256 := fun _ => rfl
  have hmark : ∀ n, (n % 32 + 192) % 256 = n % 32 + 192 ∧ (n % 16 + 224) % 256 = n % 16 + 224 ∧
      (n % 8 + 240) % 256 = n % 8 + 240 ∧ (n % 64 + 128) % 256 = n % 64 + 128 := fun n => by omega
  have hlt : c.val.toNat < d.val.toNat := h
  have hd : d.val.toNat < 0x110000 := by
    rcases d.valid with hvalid | ⟨-, hvalid⟩
    · exact hvalid.trans (by decide)
    · exact hvalid
  unfold charBytes String.utf8EncodeChar
  generalize c.val.toNat = m at hlt
  generalize d.val.toNat = n at hlt hd
  dsimp only
  have hdigit : ∀ k, k / 4096 = k / 64 / 64 ∧ k / 262144 = k / 64 / 64 / 64 := fun k => by omega
  have hm := hdigit m
  have hn := hdigit n
  -- the first digit in which the numbers differ
  have hfirst : ∀ a b : Nat, a < b → a / 64 < b / 64 ∨ a / 64 = b / 64 ∧ a % 64 < b % 64 := by
    omega
  have horder : m / 64 / 64 / 64 < n / 64 / 64 / 64 ∨
      m / 64 / 64 / 64 = n / 64 / 64 / 64 ∧ m / 64 / 64 % 64 < n / 64 / 64 % 64 ∨
      m / 64 / 64 = n / 64 / 64 ∧ m / 64 % 64 < n / 64 % 64 ∨
      m / 64 = n / 64 ∧ m % 64 < n % 64 := by
    rcases hfirst m n hlt with hlt | h
    · rcases hfirst _ _ hlt with hlt | h
      · rcases hfirst _ _ hlt with hlt | h
        · exact .inl hlt
        · exact .inr (.inl h)
      · exact .inr (.inr (.inl h))
    · exact .inr (.inr (.inr h))
  have hlead : m / 64 / 64 / 64 % 8 = m / 64 / 64 / 64 ∧ n / 64 / 64 / 64 % 8 = n / 64 / 64 / 64 := by
    omega
  split_ifs <;>
    simp only [map_cons, map_nil, cons_append, nil_append,
      cons_lt_cons_iff, Fin.lt_def, Fin.ext_iff, hbyte, hmark, hm.1, hm.2, hn.1, hn.2] <;>
    omega

theorem charBytes_lexical (c d : Char) : OrderCode.Lexical (· < ·) charBytes c d := by
  intro s t
  rcases lt_trichotomy c d with h | rfl | h
  · exact iff_of_true (charBytes_lt h s t) (.inl h)
  · rw [OrderCode.append_lt_append_iff rfl]
    simp
  · refine iff_of_false (charBytes_lt h t s).asymm ?_
    rintro (hlt | ⟨rfl, -⟩)
    · exact hlt.asymm h
    · exact lt_irrefl _ h

/-- Texts are ordered by their bytes. -/
theorem utf8_lt_iff {a b : String} : utf8 a < utf8 b ↔ a < b := by
  rw [utf8_eq_flatMap, utf8_eq_flatMap, String.lt_iff_toList_lt]
  generalize a.toList = l
  generalize b.toList = l'
  induction l generalizing l' with
  | nil =>
    cases l' with
    | nil => simp
    | cons d l' =>
      refine iff_of_true ?_ (nil_lt_cons ..)
      rw [flatMap_nil, flatMap_cons]
      obtain ⟨byte, rest, hbytes⟩ := exists_cons_of_ne_nil (String.utf8EncodeChar_ne_nil (c := d))
      rw [charBytes, hbytes]
      exact nil_lt_cons ..
  | cons c l ih =>
    cases l' with
    | nil => simp
    | cons d l' =>
      rw [flatMap_cons, flatMap_cons, charBytes_lexical c d, ih, cons_lt_cons_iff]

end Octets

import Rrflow.Lsm.Types

/-!
The Bloom filter of a row group.

A filter sets seven bits for every key and answers that a key may be present
when all of its bits are set. Bits are never cleared, so a key that was inserted
is never denied (`mayContain_filterOf`); a point read may therefore skip a row
group on a negative answer.
-/

namespace Rrflow.Lsm

open List

def filterBitsPerKey : Nat := 10
def filterHashFunctions : Nat := 7

structure RowGroupFilter where
  words : List (BitVec 64)
  deriving DecidableEq, Repr

variable (filter : RowGroupFilter)

variable (key : Bytes) (words : List (BitVec 64))

namespace RowGroupFilter

/-- Number of words for a number of unique keys, at least one. -/
def wordCount (uniqueKeyCount : Nat) : Nat :=
  (max (uniqueKeyCount * filterBitsPerKey) 64 + 63) / 64

def new (uniqueKeyCount : Nat) : RowGroupFilter :=
  { words := List.replicate (wordCount uniqueKeyCount) 0 }

def filterHash (seed : BitVec 64) : BitVec 64 :=
  let hash := key.foldl
    (fun hash byte => (hash ^^^ BitVec.ofNat 64 byte.val) * 0x00000100000001b3#64) seed
  let hash := hash ^^^ (hash >>> 33)
  let hash := hash * 0xff51afd7ed558ccd#64
  let hash := hash ^^^ (hash >>> 33)
  let hash := hash * 0xc4ceb9fe1a85ec53#64
  hash ^^^ (hash >>> 33)

def positions (bitCount : Nat) (key : Bytes) : List Nat :=
  let first := filterHash key 0xcbf29ce484222325#64
  let second := filterHash key 0x9e3779b97f4a7c15#64 ||| 1#64
  (List.range filterHashFunctions).map fun index =>
    (first + BitVec.ofNat 64 index * second).toNat % bitCount

def setBit (bit : Nat) : List (BitVec 64) :=
  words.modify (bit / 64) (fun word => word ||| (1#64 <<< (bit % 64)))

def testBit (bit : Nat) : Bool :=
  words.getD (bit / 64) 0 &&& (1#64 <<< (bit % 64)) != 0

def insert : RowGroupFilter :=
  { words := (positions (filter.words.length * 64) key).foldl setBit filter.words }

def mayContain : Bool :=
  (positions (filter.words.length * 64) key).all (testBit filter.words)

/-! ### No inserted key is denied -/

theorem length_setBit (bit : Nat) : (setBit words bit).length = words.length := by
  simp [setBit]

theorem length_foldl_setBit (bits : List Nat) (words : List (BitVec 64)) :
    (bits.foldl setBit words).length = words.length := by
  induction bits generalizing words with
  | nil => rfl
  | cons bit bits ih => rw [foldl_cons, ih, length_setBit]

theorem length_insert : (filter.insert key).words.length = filter.words.length :=
  length_foldl_setBit _ _

theorem testBit_setBit_self {words : List (BitVec 64)} {bit : Nat}
    (h : bit / 64 < words.length) : testBit (setBit words bit) bit = true := by
  have hne : (1#64 <<< (bit % 64)) ≠ 0 := by
    intro hzero
    have hbit := congrArg (fun w : BitVec 64 => w.getLsbD (bit % 64)) hzero
    have hlt : bit % 64 < 64 := Nat.mod_lt _ (by decide)
    simp [hlt] at hbit
  simp only [testBit, setBit, getD_eq_getElem?_getD, getElem?_modify_eq,
    getElem?_eq_getElem h, Option.map_eq_map, Option.map_some, Option.getD_some, bne_iff_ne, ne_eq]
  have habsorb : (words[bit / 64] ||| 1#64 <<< (bit % 64)) &&& 1#64 <<< (bit % 64)
      = 1#64 <<< (bit % 64) := by
    ext i hi
    simp only [BitVec.getElem_and, BitVec.getElem_or]
    cases words[bit / 64][i] <;> simp
  rw [habsorb]
  exact hne

theorem testBit_setBit_of_testBit {words : List (BitVec 64)} {bit other : Nat}
    (h : testBit words bit = true) : testBit (setBit words other) bit = true := by
  simp only [testBit, bne_iff_ne, ne_eq, getD_eq_getElem?_getD] at h ⊢
  intro hzero
  apply h
  by_cases hidx : other / 64 = bit / 64
  · simp only [setBit, hidx, getElem?_modify_eq] at hzero
    cases hw : words[bit / 64]? with
    | none => simp
    | some word =>
      simp only [hw, Option.map_eq_map, Option.map_some, Option.getD_some] at hzero ⊢
      ext i hi
      have hi' := congrArg (fun w : BitVec 64 => w[i]) hzero
      simp only [BitVec.getElem_and, BitVec.getElem_or] at hi' ⊢
      cases hwi : word[i] with
      | false => simp
      | true => simpa [hwi] using hi'
  · simpa [setBit, getElem?_modify_ne _ _ hidx] using hzero

theorem testBit_foldl_setBit {bits : List Nat} {words : List (BitVec 64)} {bit : Nat}
    (h : testBit words bit = true ∨ bit ∈ bits ∧ bit / 64 < words.length) :
    testBit (bits.foldl setBit words) bit = true := by
  induction bits generalizing words with
  | nil =>
    rcases h with h | h
    · exact h
    · simp at h
  | cons b bits ih =>
    apply ih
    rcases h with h | ⟨hmem, hlt⟩
    · exact Or.inl (testBit_setBit_of_testBit h)
    · rcases mem_cons.mp hmem with rfl | hmem
      · exact Or.inl (testBit_setBit_self hlt)
      · exact Or.inr ⟨hmem, by rwa [length_setBit]⟩

theorem mayContain_insert_self (hpos : 0 < filter.words.length) :
    (filter.insert key).mayContain key = true := by
  rw [mayContain, length_insert, all_eq_true]
  intro bit hbit
  refine testBit_foldl_setBit (Or.inr ⟨hbit, ?_⟩)
  simp only [positions, mem_map] at hbit
  obtain ⟨index, -, rfl⟩ := hbit
  exact Nat.div_lt_of_lt_mul (by
    rw [Nat.mul_comm 64]
    exact Nat.mod_lt _ (by omega))

theorem mayContain_insert_of_mayContain {filter : RowGroupFilter} {key other : Bytes}
    (h : filter.mayContain key = true) : (filter.insert other).mayContain key = true := by
  rw [mayContain, all_eq_true] at h
  rw [mayContain, length_insert, all_eq_true]
  intro bit hbit
  exact testBit_foldl_setBit (Or.inl (h bit hbit))

theorem mayContain_foldl_insert {keys : List Bytes} {filter : RowGroupFilter} {key : Bytes}
    (hpos : 0 < filter.words.length)
    (h : filter.mayContain key = true ∨ key ∈ keys) :
    (keys.foldl insert filter).mayContain key = true := by
  induction keys generalizing filter with
  | nil =>
    rcases h with h | h
    · exact h
    · simp at h
  | cons k keys ih =>
    apply ih (by rwa [length_insert])
    rcases h with h | h
    · exact Or.inl (mayContain_insert_of_mayContain h)
    · rcases mem_cons.mp h with rfl | h
      · exact Or.inl (mayContain_insert_self filter key hpos)
      · exact Or.inr h

end RowGroupFilter

/-- The keys of consecutive rows, each run of equal keys once. -/
def uniqueKeys : Option Bytes → List Entry → List Bytes
  | _, [] => []
  | previous, entry :: rest =>
    if previous = some entry.1 then uniqueKeys previous rest
    else entry.1 :: uniqueKeys (some entry.1) rest

def filterOf (rows : List Entry) : RowGroupFilter :=
  (uniqueKeys none rows).foldl RowGroupFilter.insert
    (RowGroupFilter.new (uniqueKeys none rows).length)

theorem mem_uniqueKeys (previous : Option Bytes) {rows : List Entry} {entry : Entry}
    (h : entry ∈ rows) : previous = some entry.1 ∨ entry.1 ∈ uniqueKeys previous rows := by
  induction rows generalizing previous with
  | nil => simp at h
  | cons row rest ih =>
    simp only [uniqueKeys]
    rcases mem_cons.mp h with rfl | h
    · split
      · exact Or.inl ‹_›
      · exact Or.inr (mem_cons_self ..)
    · split
      · exact ih previous h
      · rcases ih (some row.1) h with heq | hmem
        · rw [← Option.some.inj heq]
          exact Or.inr (mem_cons_self ..)
        · exact Or.inr (mem_cons_of_mem _ hmem)

theorem mayContain_filterOf {rows : List Entry} {entry : Entry} (h : entry ∈ rows) :
    (filterOf rows).mayContain entry.1 = true := by
  have hmem : entry.1 ∈ uniqueKeys none rows :=
    (mem_uniqueKeys none h).resolve_left (by simp)
  refine RowGroupFilter.mayContain_foldl_insert ?_ (Or.inr hmem)
  simp only [RowGroupFilter.new, length_replicate, RowGroupFilter.wordCount]
  omega

end Rrflow.Lsm

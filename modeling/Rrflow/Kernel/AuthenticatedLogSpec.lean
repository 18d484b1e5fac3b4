import Rrflow.Kernel.AuthenticatedLog

/-!
The accumulator computes the Merkle tree of RFC 9162 and its proofs are exact.

Three shapes of one tree meet here. The frontier keeps `subtree level index` for
the bits of a size, with the carry of an append as the step from one size to the
next. The stored nodes are all complete subtrees, and from them the recursive
split rebuilds frontiers and audit paths. The verifier walks by bits, which is
the climb of the tree library with the promotions skipped.
-/

namespace Rrflow.Kernel.AuthenticatedLog

open Checks List RuntimeLogAccumulator Merkle

variable {q level m last leaf start size : Nat} {input : List Byte}

theorem digit_hexDigits : ∀ n : Fin 16, digit (hexDigits.getD n.val '0') = some n.val := by decide

theorem utf8Size_hexDigits : ∀ n : Fin 16, (hexDigits.getD n.val '0').utf8Size = 1 := by decide

theorem bytesOfHex_flatMap (bytes : List Byte) :
    bytesOfHex (bytes.flatMap hexByte) = some bytes := by
  induction bytes with
  | nil => rfl
  | cons byte rest ih =>
    have hhigh := digit_hexDigits ⟨byte.val / 16, by omega⟩
    have hlow := digit_hexDigits ⟨byte.val % 16, by omega⟩
    have hbyte : Fin.ofNat 256 (byte.val / 16 * 16 + byte.val % 16) = byte := by
      ext
      show (byte.val / 16 * 16 + byte.val % 16) % 256 = byte.val
      omega
    show bytesOfHex (_ :: _ :: rest.flatMap hexByte) = _
    simp only [bytesOfHex, hhigh, hlow, ih, hbyte, Option.bind_eq_bind, Option.bind_some,
      Option.pure_def]

theorem utf8Len_flatMap (bytes : List Byte) :
    String.utf8Len (bytes.flatMap hexByte) = 2 * bytes.length := by
  induction bytes with
  | nil => rfl
  | cons byte rest ih =>
    have hhigh := utf8Size_hexDigits ⟨byte.val / 16, by omega⟩
    have hlow := utf8Size_hexDigits ⟨byte.val % 16, by omega⟩
    show String.utf8Len (_ :: _ :: rest.flatMap hexByte) = _
    rw [String.utf8Len_cons, String.utf8Len_cons, ih, hhigh, hlow, length_cons]
    omega

@[simp] theorem parseDigest_hex (label : String) (digest : Digest) :
    parseDigest label (hex digest) = .ok digest := by
  have hsize : (hex digest).utf8ByteSize = 64 := by
    rw [hex, String.utf8ByteSize_ofList, utf8Len_flatMap, digest.2]
  have hfrom : fromHex (hex digest) = some digest := by
    rw [fromHex, hex, String.toList_ofList, bytesOfHex_flatMap]
    show (if h : digest.1.length = 32 then some ⟨digest.1, h⟩ else none) = some digest
    rw [dif_pos digest.2]
  rw [parseDigest, hsize, hfrom]
  rfl

theorem hex_injective : Function.Injective hex := by
  intro a b h
  have hparse := parseDigest_hex "" a
  rw [h, parseDigest_hex] at hparse
  exact (Except.ok.inj hparse).symm

section Walk

variable {H : Type} {node : H → H → H}

/-- A last leaf rises to the first level where it has a sibling. -/
theorem climb_skipEven (h : last ≠ 0) (value sibling : H) (rest : List H) :
    climb node (last + 1) last value (sibling :: rest) =
      climb node ((skipEven last last).2 / 2 + 1) ((skipEven last last).1 / 2)
        (node sibling value) rest := by
  induction last using Nat.strong_induction_on with
  | _ last ih =>
    rw [skipEven]
    by_cases heven : last % 2 = 0
    · rw [if_pos ⟨h, heven⟩, climb_promoted (by omega) heven (by omega),
        show (last + 1 + 1) / 2 = last / 2 + 1 by omega]
      exact ih _ (by omega) (by omega)
    · rw [if_neg (by omega), climb_cons (by omega) (by omega),
        show (last + 1 + 1) / 2 = last / 2 + 1 by omega, if_pos (by omega)]

theorem skipEven_self (last : Nat) : (skipEven last last).1 = (skipEven last last).2 := by
  induction last using Nat.strong_induction_on with
  | _ last ih =>
    rw [skipEven]
    split
    · exact ih _ (by omega)
    · rfl

theorem nextPosition_le (h : leaf ≤ last) :
    (nextPosition leaf last).1 ≤ (nextPosition leaf last).2 := by
  unfold nextPosition
  split
  · next hlast =>
      obtain ⟨-, rfl⟩ := hlast
      show (skipEven leaf leaf).1 / 2 ≤ (skipEven leaf leaf).2 / 2
      rw [skipEven_self]
  · show leaf / 2 ≤ last / 2
    omega

/-- One sibling of the path, by bits and by levels. -/
theorem climb_nextPosition (hle : leaf ≤ last) (h : last ≠ 0) (value sibling : H) (rest : List H) :
    climb node (last + 1) leaf value (sibling :: rest) =
      climb node ((nextPosition leaf last).2 + 1) (nextPosition leaf last).1
        (if leaf % 2 = 1 ∨ leaf = last then node sibling value else node value sibling) rest := by
  by_cases hpromoted : leaf % 2 = 0 ∧ leaf = last
  · obtain ⟨heven, rfl⟩ := hpromoted
    rw [nextPosition, if_pos ⟨heven, rfl⟩, if_pos (Or.inr rfl), climb_skipEven h]
  · have hside : (leaf % 2 = 1 ∨ leaf = last) ↔ leaf % 2 = 1 := by omega
    rw [nextPosition, if_neg hpromoted, climb_cons (by omega) (by omega)]
    simp only [hside]
    rw [show (last + 1 + 1) / 2 = last / 2 + 1 by omega]

/-- The loop of the verifier is a climb over the siblings it parses. -/
theorem foldPath_eq_ok {parse : String → Except Error H} {computed value : H} {path : List String}
    (hle : leaf ≤ last) :
    foldPath parse node leaf last computed path = .ok (value, 0) ↔
      ∃ siblings, path.mapM parse = .ok siblings ∧
        climb node (last + 1) leaf computed siblings = some value := by
  induction path generalizing leaf last computed with
  | nil =>
    rw [foldPath, mapM_nil]
    by_cases hlast : last = 0
    · subst hlast
      simp [climb_one, pure, Except.pure]
    · simp [climb_nil (show 2 ≤ last + 1 by omega) (show leaf < last + 1 by omega), hlast,
        pure, Except.pure]
  | cons sibling rest ih =>
    simp only [foldPath, mapM_cons, bind_eq_ok, ensure_eq_ok, ih (nextPosition_le hle)]
    constructor
    · rintro ⟨-, hlast, head, hhead, tail, htail, hclimb⟩
      exact ⟨head :: tail, ⟨head, hhead, tail, htail, rfl⟩,
        (climb_nextPosition hle hlast ..).trans hclimb⟩
    · rintro ⟨siblings, ⟨head, hhead, tail, htail, hsiblings⟩, hclimb⟩
      obtain rfl : head :: tail = siblings := by simpa [pure, Except.pure] using hsiblings
      have hlast : last ≠ 0 := by
        rintro rfl
        rw [climb_one (by omega)] at hclimb
        exact absurd hclimb (by simp)
      exact ⟨(), hlast, head, hhead, tail, htail,
        (climb_nextPosition hle hlast ..).symm.trans hclimb⟩

end Walk

section Subtrees

variable (sha256 : List Byte → Digest) (inputs : List (List Byte))

/-- The root over the inputs from `start` on, `size` of them. -/
def rangeRoot (start size : Nat) : Digest := mth sha256 ((inputs.drop start).take size)

def subtree (level index : Nat) : Digest := rangeRoot sha256 inputs (index * 2 ^ level) (2 ^ level)

variable {sha256 inputs}

theorem mth_nil : mth sha256 [] = emptyRoot sha256 := root_nil _ _

/-- A range splits after a full power of two. -/
theorem rangeRoot_add {start rest level : Nat} (hend : start + 2 ^ level + rest ≤ inputs.length)
    (hpos : 0 < rest) (hrest : rest ≤ 2 ^ level) :
    rangeRoot sha256 inputs start (2 ^ level + rest) =
      nodeHash sha256 (rangeRoot sha256 inputs start (2 ^ level))
        (rangeRoot sha256 inputs (start + 2 ^ level) rest) := by
  have hleft : ((inputs.drop start).take (2 ^ level)).length = 2 ^ level := by
    rw [length_take, length_drop]
    omega
  have hright : ((inputs.drop (start + 2 ^ level)).take rest).length = rest := by
    rw [length_take, length_drop]
    omega
  rw [rangeRoot, mth, take_add, drop_drop, map_append,
    root_append (j := level) (by rw [length_map, hleft]) _
      (by rw [length_map, hright]; exact hrest)]
  · rfl
  · intro hnil
    rw [map_eq_nil_iff] at hnil
    rw [hnil] at hright
    exact absurd hright (by simp; omega)

theorem subtree_succ {level index : Nat} (hend : (index + 1) * 2 ^ (level + 1) ≤ inputs.length) :
    subtree sha256 inputs (level + 1) index =
      nodeHash sha256 (subtree sha256 inputs level (2 * index))
        (subtree sha256 inputs level (2 * index + 1)) := by
  have hpos := Nat.two_pow_pos level
  have hstart : index * 2 ^ (level + 1) = 2 * index * 2 ^ level := by ring
  have hnext : (2 * index + 1) * 2 ^ level = 2 * index * 2 ^ level + 2 ^ level := by ring
  have hlast : (index + 1) * 2 ^ (level + 1) = 2 * index * 2 ^ level + 2 ^ level + 2 ^ level := by
    ring
  rw [subtree, hstart, show 2 ^ (level + 1) = 2 ^ level + 2 ^ level by ring,
    rangeRoot_add (by omega) hpos (le_refl _), subtree, subtree, hnext]

theorem subtree_zero {index : Nat} (h : inputs[index]? = some input) :
    subtree sha256 inputs 0 index = leafHash sha256 input := by
  have hdrop : (inputs.drop index).take 1 = [input] := by
    obtain ⟨hlt, rfl⟩ := List.getElem?_eq_some_iff.mp h
    rw [List.drop_eq_getElem_cons hlt]
    rfl
  rw [subtree, Nat.pow_zero, Nat.mul_one, rangeRoot, hdrop]
  exact root_singleton _ _ _

end Subtrees

/-! ### Frontiers -/

section Frontier

/-- A number with its last bit cleared and that bit. -/
theorem mul_of_odd (h : q % 2 = 1) (p : Nat) : q / 2 * 2 * p + p = q * p := by
  calc q / 2 * 2 * p + p = (q / 2 * 2 + 1) * p := by ring
    _ = q * p := by rw [show q / 2 * 2 + 1 = q by omega]

theorem levels_pos (h : 0 < q) : levels q = levels (q / 2) + 1 := by
  unfold levels
  rw [if_neg (by omega)]
  by_cases hone : q = 1
  · subst hone
    rfl
  · have hlog := Nat.log_div_base 2 q
    have hpos : 0 < Nat.log 2 q := Nat.log_pos (by omega) (by omega)
    rw [if_neg (by omega)]
    omega

theorem levels_le (h : q < 2 ^ 64) : levels q ≤ 64 := by
  unfold levels
  split
  · omega
  · next hne =>
      have := Nat.log_lt_of_lt_pow hne h
      omega

theorem div_two_pow_levels (q : Nat) : q / 2 ^ levels q = 0 := by
  apply Nat.div_eq_of_lt
  unfold levels
  split
  · omega
  · exact Nat.lt_pow_succ_log_self (by omega) q

variable (sha256 : List Byte → Digest) (inputs : List (List Byte))

/-- What the frontier holds at `level` when the size above it is `q`. -/
def entry (level q : Nat) : Option String :=
  if q % 2 = 1 then some (hex (subtree sha256 inputs level (q - 1))) else none

def frontierFrom (level q : Nat) : List (Option String) :=
  (List.range (levels q)).map fun l => entry sha256 inputs (level + l) (q / 2 ^ l)

def accumulatorOf (m : Nat) : RuntimeLogAccumulator where
  version := runtimeLogAccumulatorVersion
  treeSize := m
  frontier := frontierFrom sha256 inputs 0 m
  root := hex (mth sha256 (inputs.take m))

variable {sha256 inputs}

theorem frontierFrom_zero (level : Nat) : frontierFrom sha256 inputs level 0 = [] := rfl

theorem frontierFrom_pos (h : 0 < q) :
    frontierFrom sha256 inputs level q =
      entry sha256 inputs level q :: frontierFrom sha256 inputs (level + 1) (q / 2) := by
  rw [frontierFrom, levels_pos h, range_succ_eq_map, map_cons, map_map, Nat.add_zero,
    Nat.pow_zero, Nat.div_one]
  congr 1
  apply map_congr_left
  intro l _
  show entry sha256 inputs (level + (l + 1)) (q / 2 ^ (l + 1)) = _
  rw [Nat.div_div_eq_div_mul, Nat.pow_succ', show level + (l + 1) = level + 1 + l by omega]

/-- The root over what lies behind a frontier. -/
def behind (sha256 : List Byte → Digest) (inputs : List (List Byte)) (m start : Nat) :
    Option Digest :=
  if start = m then none else some (rangeRoot sha256 inputs start (m - start))

theorem behind_odd (hodd : q % 2 = 1) (hlow : q * 2 ^ level ≤ m) (hhigh : m < (q + 1) * 2 ^ level)
    (hend : m ≤ inputs.length) :
    behind sha256 inputs m (q / 2 * 2 ^ (level + 1)) =
      some ((behind sha256 inputs m (q * 2 ^ level)).elim (subtree sha256 inputs level (q - 1))
        (nodeHash sha256 (subtree sha256 inputs level (q - 1)))) := by
  have hpos := Nat.two_pow_pos level
  have hstart : q / 2 * 2 ^ (level + 1) = (q - 1) * 2 ^ level := by
    rw [Nat.pow_succ', ← Nat.mul_assoc]
    congr 1
    omega
  have hnext : q * 2 ^ level = (q - 1) * 2 ^ level + 2 ^ level := by
    nth_rewrite 1 [show q = q - 1 + 1 by omega]
    ring
  have hlast : (q + 1) * 2 ^ level = q * 2 ^ level + 2 ^ level := by ring
  rw [hstart, behind, if_neg (by omega), behind]
  by_cases hfull : q * 2 ^ level = m
  · rw [if_pos hfull, show m - (q - 1) * 2 ^ level = 2 ^ level by omega]
    rfl
  · rw [if_neg hfull, show m - (q - 1) * 2 ^ level = 2 ^ level + (m - q * 2 ^ level) by omega,
      rangeRoot_add (by omega) (by omega) (by omega), ← hnext]
    rfl

theorem behind_even (heven : q % 2 = 0) :
    behind sha256 inputs m (q / 2 * 2 ^ (level + 1)) = behind sha256 inputs m (q * 2 ^ level) := by
  rw [Nat.pow_succ', ← Nat.mul_assoc, show q / 2 * 2 = q by omega]

/-- The fold over a frontier joins its subtrees to the part behind it. -/
theorem foldlM_frontierFrom {m level q : Nat} (hlow : q * 2 ^ level ≤ m)
    (hhigh : m < (q + 1) * 2 ^ level) (hend : m ≤ inputs.length) :
    ((frontierFrom sha256 inputs level q).filterMap id).foldlM
      (fun (root : Option Digest) value => do
        let next ← parseFrontier value
        return some (root.elim next (nodeHash sha256 next)))
      (behind sha256 inputs m (q * 2 ^ level)) =
      (.ok (behind sha256 inputs m 0) : Except Error (Option Digest)) := by
  induction q using Nat.strong_induction_on generalizing level with
  | _ q ih =>
    by_cases hzero : q = 0
    · subst hzero
      rw [frontierFrom_zero, Nat.zero_mul]
      rfl
    · have hstep := @ih (q / 2) (by omega) (level + 1)
        (by
          rw [Nat.pow_succ', ← Nat.mul_assoc]
          exact le_trans (Nat.mul_le_mul_right _ (Nat.div_mul_le_self q 2)) hlow)
        (by
          rw [Nat.pow_succ', ← Nat.mul_assoc]
          exact lt_of_lt_of_le hhigh (Nat.mul_le_mul_right _ (by omega)))
      rw [frontierFrom_pos (by omega), entry]
      by_cases hodd : q % 2 = 1
      · rw [behind_odd hodd hlow hhigh hend] at hstep
        rw [if_pos hodd, filterMap_cons_some (f := id) (b := _) rfl, foldlM_cons,
          parseFrontier, parseDigest_hex]
        exact hstep
      · rw [behind_even (by omega)] at hstep
        rw [if_neg hodd, filterMap_cons_none rfl]
        exact hstep

theorem frontierRoot_eq (hend : m ≤ inputs.length) :
    frontierRoot sha256 (frontierFrom sha256 inputs 0 m) = .ok (mth sha256 (inputs.take m)) := by
  have hfold := @foldlM_frontierFrom sha256 inputs m 0 m (by omega) (by omega) hend
  rw [Nat.pow_zero, Nat.mul_one, behind, if_pos rfl] at hfold
  rw [frontierRoot, hfold, behind]
  by_cases hzero : m = 0
  · subst hzero
    rw [if_pos rfl, take_zero, mth_nil]
    rfl
  · rw [if_neg (by omega)]
    rfl

theorem validate_accumulatorOf {m : Nat} (hend : m ≤ inputs.length) (hfit : m < 2 ^ 64) :
    (accumulatorOf sha256 inputs m).validate sha256 = .ok () := by
  have hlength : (frontierFrom sha256 inputs 0 m).length = levels m := by
    rw [frontierFrom, length_map, length_range]
  simp only [validate, accumulatorOf, bind_eq_ok, ensure_eq_ok, forM_eq_ok,
    parseDigest_hex, frontierRoot_eq hend, hlength]
  refine ⟨(), trivial, (), levels_le hfit, (), ?_, (), trivial, _, rfl, _, rfl, rfl⟩
  rintro ⟨value, level⟩ hmem
  have hvalue := mk_mem_zipIdx_iff_getElem?.mp hmem
  rw [frontierFrom, getElem?_map, Option.map_eq_some_iff] at hvalue
  obtain ⟨l, hl, rfl⟩ := hvalue
  obtain ⟨-, rfl⟩ := List.getElem?_eq_some_iff.mp hl
  rw [List.getElem_range, Nat.zero_add]
  rw [validateLevel, Nat.testBit_eq_decide_div_mod_eq, entry]
  by_cases hodd : m / 2 ^ level % 2 = 1
  · rw [if_pos hodd, bind_eq_ok]
    refine ⟨(), by simp [hodd], forM_eq_ok.mpr ?_⟩
    intro value hvalue
    obtain rfl : value = hex (subtree sha256 inputs level (m / 2 ^ level - 1)) := by
      simpa using hvalue
    rw [parseFrontier, parseDigest_hex]
    rfl
  · rw [if_neg hodd, bind_eq_ok]
    exact ⟨(), by simp [hodd], rfl⟩

/-- The subtrees that end where the subtree `q` of `level` does, from that level up. -/
def Completes (sha256 : List Byte → Digest) (inputs : List (List Byte)) (level q : Nat)
    (node : RuntimeMerkleNode) : Prop :=
  level ≤ node.level ∧ (node.index + 1) * 2 ^ node.level = (q + 1) * 2 ^ level ∧
    node.digest = hex (subtree sha256 inputs node.level node.index)

theorem completes_self {node : RuntimeMerkleNode} (h : node.level = level) :
    Completes sha256 inputs level q node ↔
      node = ⟨level, q, hex (subtree sha256 inputs level q)⟩ := by
  obtain ⟨nodeLevel, index, digest⟩ := node
  obtain rfl : nodeLevel = level := h
  have hpos := Nat.two_pow_pos nodeLevel
  simp only [Completes, le_refl, true_and, RuntimeMerkleNode.mk.injEq,
    Nat.mul_left_inj hpos.ne', Nat.add_right_cancel_iff]
  constructor
  · rintro ⟨rfl, rfl⟩
    exact ⟨rfl, rfl⟩
  · rintro ⟨rfl, rfl⟩
    exact ⟨rfl, rfl⟩

theorem completes_above {node : RuntimeMerkleNode} (h : node.level ≠ level) :
    Completes sha256 inputs level q node ↔
      q % 2 = 1 ∧ Completes sha256 inputs (level + 1) (q / 2) node := by
  obtain ⟨nodeLevel, index, digest⟩ := node
  simp only [Completes]
  have hpos := Nat.two_pow_pos level
  constructor
  · rintro ⟨hle, hend, rfl⟩
    -- a subtree of a higher level ends at an even place
    obtain ⟨d, rfl⟩ : ∃ d, nodeLevel = level + (d + 1) :=
      ⟨nodeLevel - level - 1, by simp only at h hle; omega⟩
    have hodd : (index + 1) * 2 ^ d * 2 = q + 1 := by
      apply Nat.eq_of_mul_eq_mul_right hpos
      rw [← hend]
      ring
    refine ⟨by omega, by omega, ?_, rfl⟩
    rw [hend, show q + 1 = (q / 2 + 1) * 2 by omega]
    ring
  · rintro ⟨hodd, hle, hend, rfl⟩
    refine ⟨by omega, ?_, rfl⟩
    rw [hend]
    nth_rewrite 2 [show q = q / 2 * 2 + 1 by omega]
    ring

theorem carry_frontierFrom {level q : Nat} (hend : (q + 1) * 2 ^ level ≤ inputs.length) :
    ∃ created,
      carry sha256 (frontierFrom sha256 inputs level q) q level
        (subtree sha256 inputs level q) =
        .ok (frontierFrom sha256 inputs level (q + 1), created) ∧
      ∀ node, node ∈ created ↔ Completes sha256 inputs level q node := by
  induction q using Nat.strong_induction_on generalizing level with
  | _ q ih =>
    rw [carry.eq_def, frontierFrom_pos (q := q + 1) (by omega), entry]
    by_cases hodd : q % 2 = 1
    · have hup : (q / 2 + 1) * 2 ^ (level + 1) = (q + 1) * 2 ^ level := by
        rw [Nat.add_mul q, ← mul_of_odd hodd]
        ring
      obtain ⟨created, hcarry, hcreated⟩ := @ih (q / 2) (by omega) (level + 1)
        (by rw [hup]; exact hend)
      have hnode := @subtree_succ sha256 inputs level (q / 2) (by rw [hup]; exact hend)
      rw [show 2 * (q / 2) = q - 1 by omega, show q - 1 + 1 = q by omega] at hnode
      rw [frontierFrom_pos (by omega), entry, if_pos hodd, if_pos hodd, if_neg (by omega),
        show (q + 1) / 2 = q / 2 + 1 by omega]
      refine ⟨⟨level, q, hex (subtree sha256 inputs level q)⟩ :: created, ?_, ?_⟩
      · rw [hnode] at hcarry
        simp only [parseFrontier, bind_eq_ok]
        exact ⟨_, parseDigest_hex _ _, _, hcarry, rfl⟩
      · intro node
        rw [mem_cons, hcreated]
        by_cases hlevel : node.level = level
        · rw [completes_self hlevel]
          refine or_iff_left ?_
          rintro ⟨hle, -⟩
          omega
        · rw [completes_above hlevel]
          refine Iff.trans (or_iff_right ?_) (and_iff_right hodd).symm
          rintro rfl
          exact hlevel rfl
    · rw [if_neg hodd, if_pos (by omega), Nat.add_sub_cancel,
        show (q + 1) / 2 = q / 2 by omega]
      refine ⟨[⟨level, q, hex (subtree sha256 inputs level q)⟩], ?_, ?_⟩
      · by_cases hzero : q = 0
        · subst hzero
          rfl
        · rw [frontierFrom_pos (by omega)]
          rfl
      · intro node
        rw [mem_singleton]
        by_cases hlevel : node.level = level
        · rw [completes_self hlevel]
        · rw [completes_above hlevel]
          refine iff_of_false ?_ (fun h => hodd h.1)
          rintro rfl
          exact hlevel rfl

theorem append_accumulatorOf {m : Nat} {input : List Byte} (hinput : inputs[m]? = some input)
    (hfit : m + 1 < 2 ^ 64) :
    ∃ created, (accumulatorOf sha256 inputs m).append sha256 input =
        .ok (accumulatorOf sha256 inputs (m + 1), created) ∧
      ∀ node, node ∈ created ↔ Completes sha256 inputs 0 m node := by
  obtain ⟨hlt, -⟩ := List.getElem?_eq_some_iff.mp hinput
  obtain ⟨created, hcarry, hcreated⟩ := @carry_frontierFrom sha256 inputs 0 m (by omega)
  rw [subtree_zero hinput] at hcarry
  refine ⟨created, ?_, hcreated⟩
  have hvalid := @validate_accumulatorOf sha256 inputs m (by omega) (by omega)
  have hnext := @validate_accumulatorOf sha256 inputs (m + 1) (by omega) hfit
  simp only [append, bind_eq_ok, ensure_eq_ok]
  refine ⟨(), hvalid, (), show m ≠ 2 ^ 64 - 1 by omega, _, hcarry, _,
    frontierRoot_eq (m := m + 1) (by omega), (), hnext, rfl⟩

/-- The nodes emitted by the first `m` appends are the complete subtrees within
them. -/
theorem appendAll_take {m : Nat} (hend : m ≤ inputs.length) (hfit : m < 2 ^ 64) :
    ∃ nodes, appendAll sha256 (inputs.take m) =
        .ok (accumulatorOf sha256 inputs m, nodes) ∧
      ∀ node : RuntimeMerkleNode, node ∈ nodes ↔
        (node.index + 1) * 2 ^ node.level ≤ m ∧
          node.digest = hex (subtree sha256 inputs node.level node.index) := by
  induction m with
  | zero =>
    refine ⟨[], ?_, ?_⟩
    · rw [accumulatorOf, take_zero, mth_nil]
      rfl
    · intro node
      have := Nat.two_pow_pos node.level
      have hpos : 0 < (node.index + 1) * 2 ^ node.level := Nat.mul_pos (by omega) this
      simp only [not_mem_nil, false_iff]
      omega
  | succ m ih =>
    obtain ⟨nodes, hnodes, hmem⟩ := ih (by omega) (by omega)
    obtain ⟨created, happend, hcreated⟩ := @append_accumulatorOf sha256 inputs m _
      (getElem?_eq_getElem (show m < inputs.length by omega)) hfit
    refine ⟨nodes ++ created, ?_, ?_⟩
    · rw [appendAll] at hnodes ⊢
      rw [take_succ_eq_append_getElem (by omega), foldlM_append, bind_eq_ok]
      refine ⟨_, hnodes, ?_⟩
      rw [foldlM_cons, bind_eq_ok]
      refine ⟨_, ?_, rfl⟩
      rw [bind_eq_ok]
      exact ⟨_, happend, rfl⟩
    · intro node
      rw [mem_append, hmem, hcreated]
      simp only [Completes, Nat.zero_le, true_and, Nat.pow_zero, Nat.mul_one]
      rw [← or_and_right]
      refine and_congr_left fun _ => ?_
      omega

end Frontier

/-! ### Reading stored subtrees -/

section Stored

variable {sha256 : List Byte → Digest} {inputs : List (List Byte)} {nodeAt : NodeSource}

/-- Every complete subtree within the first `n` inputs can be read. -/
def Stores (sha256 : List Byte → Digest) (inputs : List (List Byte)) (n : Nat)
    (nodeAt : NodeSource) : Prop :=
  ∀ level index, (index + 1) * 2 ^ level ≤ n →
    nodeAt level index = .ok (some (hex (subtree sha256 inputs level index)))

theorem stores_storedNodes {n : Nat} {nodes : List RuntimeMerkleNode}
    (hnodes : ∀ node : RuntimeMerkleNode, node ∈ nodes ↔
      (node.index + 1) * 2 ^ node.level ≤ n ∧
        node.digest = hex (subtree sha256 inputs node.level node.index)) :
    Stores sha256 inputs n (storedNodes nodes) := by
  intro level index hend
  have hmem := (hnodes ⟨level, index, hex (subtree sha256 inputs level index)⟩).mpr ⟨hend, rfl⟩
  cases hfind : nodes.find? fun node => node.level = level ∧ node.index = index with
  | none =>
    have := find?_eq_none.mp hfind _ hmem
    simp at this
  | some node =>
    have hplace := find?_some hfind
    have hdigest := ((hnodes node).mp (mem_of_find?_eq_some hfind)).2
    obtain ⟨hlevel, hindex⟩ : node.level = level ∧ node.index = index := by simpa using hplace
    rw [storedNodes, hfind, Option.map_some, hdigest, hlevel, hindex]

variable {n : Nat}

theorem Stores.requireNode (h : Stores sha256 inputs n nodeAt) {missing label : String}
    {index : Nat} (hend : (index + 1) * 2 ^ level ≤ n) :
    requireNode nodeAt missing label level index =
      .ok (hex (subtree sha256 inputs level index)) := by
  rw [AuthenticatedLog.requireNode, h level index hend]
  show (do let _ ← parseDigest label _; return _) = _
  rw [parseDigest_hex]
  rfl

/-- Downwards from a level, the place reached is the size without its lower bits. -/
theorem div_mul_two_pow_succ (m level : Nat) :
    m / 2 ^ (level + 1) * 2 ^ (level + 1) = m / 2 ^ level / 2 * 2 * 2 ^ level := by
  rw [show m / 2 ^ (level + 1) = m / 2 ^ level / 2 by rw [Nat.div_div_eq_div_mul, Nat.pow_succ],
    Nat.pow_succ']
  ring

theorem Stores.frontierNodes (h : Stores sha256 inputs n nodeAt) (hm : m ≤ n) (level : Nat) :
    frontierNodes m nodeAt level (m / 2 ^ level * 2 ^ level) =
      .ok ((List.range level).map fun l => entry sha256 inputs l (m / 2 ^ l)) := by
  induction level with
  | zero => rfl
  | succ level ih =>
    rw [AuthenticatedLog.frontierNodes, div_mul_two_pow_succ, Nat.testBit_eq_decide_div_mod_eq,
      range_succ, map_append, map_cons, map_nil, entry]
    by_cases hodd : m / 2 ^ level % 2 = 1
    · have hindex : m / 2 ^ level / 2 * 2 * 2 ^ level / 2 ^ level = m / 2 ^ level - 1 := by
        rw [Nat.mul_div_cancel _ (Nat.two_pow_pos level)]
        omega
      have hbound : (m / 2 ^ level - 1 + 1) * 2 ^ level ≤ n := by
        rw [Nat.sub_add_cancel (Nat.pos_of_ne_zero fun hzero => by rw [hzero] at hodd; omega)]
        exact le_trans (Nat.div_mul_le_self _ _) hm
      rw [if_pos (by simp [hodd]), hindex, mul_of_odd hodd, h.requireNode hbound, ih, if_pos hodd]
      rfl
    · rw [if_neg (by simp [hodd]), show m / 2 ^ level / 2 * 2 = m / 2 ^ level by omega, ih,
        if_neg hodd]
      rfl

theorem Stores.fromNodes (h : Stores sha256 inputs n nodeAt) (hm : m ≤ n) (hend : m ≤ inputs.length)
    (hfit : m < 2 ^ 64) :
    RuntimeLogAccumulator.fromNodes sha256 m (hex (mth sha256 (inputs.take m))) nodeAt =
      .ok (accumulatorOf sha256 inputs m) := by
  rw [RuntimeLogAccumulator.fromNodes, bind_eq_ok]
  refine ⟨_, parseDigest_hex _ _, ?_⟩
  have hfrontier := h.frontierNodes hm (levels m)
  rw [div_two_pow_levels, Nat.zero_mul] at hfrontier
  by_cases hzero : m = 0
  · subst hzero
    rw [if_pos rfl, bind_eq_ok, take_zero, mth_nil]
    refine ⟨(), ensure_eq_ok.mpr rfl, ?_⟩
    rw [accumulatorOf, take_zero, mth_nil]
    rfl
  · rw [if_neg hzero, bind_eq_ok]
    refine ⟨_, hfrontier, bind_eq_ok.mpr ⟨(), ?_, ?_⟩⟩
    · have hvalid := @validate_accumulatorOf sha256 inputs m hend hfit
      simpa [accumulatorOf, frontierFrom] using hvalid
    · simp [accumulatorOf, frontierFrom, pure, Except.pure]

theorem Stores.exists_fromNodes_iff (h : Stores sha256 inputs n nodeAt) (hm : m ≤ n)
    (hend : m ≤ inputs.length) (hfit : m < 2 ^ 64) (root : Digest) :
    (∃ retained, RuntimeLogAccumulator.fromNodes sha256 m (hex root) nodeAt = .ok retained) ↔
      root = mth sha256 (inputs.take m) := by
  constructor
  · rintro ⟨retained, hretained⟩
    simp only [RuntimeLogAccumulator.fromNodes, bind_eq_ok] at hretained
    obtain ⟨_, -, hretained⟩ := hretained
    split at hretained
    · next hzero =>
      simp only [bind_eq_ok, ensure_eq_ok] at hretained
      obtain ⟨_, hroot, -⟩ := hretained
      rw [hzero, take_zero, mth_nil]
      exact (hex_injective hroot).symm
    · simp only [bind_eq_ok] at hretained
      obtain ⟨frontier, hfrontier, _, hvalid, -⟩ := hretained
      have hnodes := h.frontierNodes hm (levels m)
      rw [div_two_pow_levels, Nat.zero_mul, hfrontier] at hnodes
      obtain rfl := Except.ok.inj hnodes
      simp only [validate, bind_eq_ok, ensure_eq_ok, parseDigest_hex] at hvalid
      obtain ⟨_, -, _, -, _, -, _, -, parsed, hparsed, computed, hcomputed, rfl⟩ := hvalid
      have hentries : ((List.range (levels m)).map fun l => entry sha256 inputs l (m / 2 ^ l)) =
          frontierFrom sha256 inputs 0 m := by
        simp [frontierFrom]
      rw [hentries, frontierRoot_eq hend] at hcomputed
      exact (Except.ok.inj hparsed).trans (Except.ok.inj hcomputed).symm
  · rintro rfl
    exact ⟨_, h.fromNodes hm hend hfit⟩

/-- A range that starts at a multiple of a power of two it fits in. -/
structure Aligned (start size : Nat) : Prop where
  pos : 0 < size
  level : ∃ j, size ≤ 2 ^ j ∧ 2 ^ j ∣ start

theorem Aligned.halves (h : Aligned start size) (htwo : 2 ≤ size) :
    Aligned start (split size) ∧ Aligned (start + split size) (size - split size) := by
  obtain ⟨j, hle, hdvd⟩ := h.level
  have hlow := split_lt htwo
  have hhigh := le_two_mul_split htwo
  have hpos := split_pos size
  have hpow : split size = 2 ^ Nat.log 2 (size - 1) := rfl
  have hlevel : Nat.log 2 (size - 1) ≤ j := by
    apply (Nat.pow_le_pow_iff_right (show 1 < 2 by omega)).mp
    omega
  have hstart : split size ∣ start := by
    rw [hpow]
    exact dvd_trans (Nat.pow_dvd_pow 2 hlevel) hdvd
  refine ⟨⟨hpos, _, le_of_eq hpow, hpow ▸ hstart⟩, ⟨by omega, Nat.log 2 (size - 1), by omega, ?_⟩⟩
  rw [← hpow]
  exact Nat.dvd_add hstart (dvd_refl _)

theorem rangeRoot_split (htwo : 2 ≤ size) (hend : start + size ≤ inputs.length) :
    rangeRoot sha256 inputs start size =
      nodeHash sha256 (rangeRoot sha256 inputs start (split size))
        (rangeRoot sha256 inputs (start + split size) (size - split size)) := by
  have hlow := split_lt htwo
  have hhigh := le_two_mul_split htwo
  have hpow : split size = 2 ^ Nat.log 2 (size - 1) := rfl
  have hadd := @rangeRoot_add sha256 inputs start (size - split size)
    (Nat.log 2 (size - 1)) (by omega) (by omega)
    (by omega)
  rwa [← hpow, show split size + (size - split size) = size by omega] at hadd

theorem Stores.rangeHash (h : Stores sha256 inputs n nodeAt) (hn : n ≤ inputs.length)
    (haligned : Aligned start size) (hend : start + size ≤ n) :
    rangeHash sha256 nodeAt start size = .ok (hex (rangeRoot sha256 inputs start size)) := by
  induction size using Nat.strong_induction_on generalizing start with
  | _ size ih =>
    rw [AuthenticatedLog.rangeHash]
    by_cases hpower : 2 ^ Nat.log 2 size = size ∨ size < 2
    · have hsize : 2 ^ Nat.log 2 size = size := by
        rcases hpower with hpower | hsmall
        · exact hpower
        · obtain rfl : size = 1 := by have := haligned.pos; omega
          rfl
      obtain ⟨j, hle, hdvd⟩ := haligned.level
      have hstart : start / size * size = start := by
        apply Nat.div_mul_cancel
        rw [← hsize] at hle ⊢
        exact dvd_trans (Nat.pow_dvd_pow 2
          ((Nat.pow_le_pow_iff_right (show 1 < 2 by omega)).mp hle)) hdvd
      rw [dif_pos hpower, h.requireNode, subtree, hsize, hstart]
      rw [hsize, Nat.add_mul, hstart]
      omega
    · have htwo : 2 ≤ size := by omega
      have hlow := split_lt htwo
      have hpos := split_pos size
      obtain ⟨hleft, hright⟩ := haligned.halves htwo
      rw [dif_neg hpower, ih _ hlow hleft (by omega), ih _ (by omega) hright (by omega),
        rangeRoot_split htwo (by omega)]
      simp only [bind_eq_ok]
      exact ⟨_, rfl, _, parseDigest_hex _ _, _, rfl, _, parseDigest_hex _ _, rfl⟩

theorem Stores.buildPath (h : Stores sha256 inputs n nodeAt) (hn : n ≤ inputs.length)
    {start size leaf : Nat} (haligned : Aligned start size) (hend : start + size ≤ n)
    (hleaf : start ≤ leaf) :
    buildPath sha256 nodeAt start size leaf =
      .ok ((auditPath (emptyRoot sha256) (nodeHash sha256)
        (((inputs.drop start).take size).map (leafHash sha256)) (leaf - start)).map hex) := by
  induction size using Nat.strong_induction_on generalizing start with
  | _ size ih =>
    have hlength : (((inputs.drop start).take size).map (leafHash sha256)).length = size := by
      rw [length_map, length_take, length_drop]
      omega
    rw [AuthenticatedLog.buildPath, auditPath]
    by_cases hone : size ≤ 1
    · rw [dif_pos hone, dif_neg (by omega)]
      rfl
    · have htwo : 2 ≤ size := by omega
      have hlow := split_lt htwo
      have hpos := split_pos size
      obtain ⟨hleft, hright⟩ := haligned.halves htwo
      have htake : (((inputs.drop start).take size).map (leafHash sha256)).take
          (split size) =
          ((inputs.drop start).take (split size)).map (leafHash sha256) := by
        rw [← map_take, take_take, min_eq_left (by omega)]
      have hdrop : (((inputs.drop start).take size).map (leafHash sha256)).drop
          (split size) =
          ((inputs.drop (start + split size)).take (size - split size)).map (leafHash sha256) := by
        rw [← map_drop, drop_take, drop_drop]
      rw [dif_neg hone, dif_pos (by omega), hlength, htake, hdrop]
      by_cases hside : leaf < start + split size
      · rw [if_pos hside, if_pos (by omega), ih _ hlow hleft (by omega) hleaf,
          h.rangeHash hn hright (by omega), map_append]
        rfl
      · rw [if_neg hside, if_neg (by omega), ih _ (by omega) hright (by omega) (by omega),
          h.rangeHash hn hleft (by omega), map_append, Nat.sub_add_eq]
        rfl

end Stored

/-! ### Proofs -/

section Proofs

variable {sha256 : List Byte → Digest}

theorem RuntimeInclusionProof.verify_eq_ok {proof : RuntimeInclusionProof} {root : Digest} :
    proof.verify sha256 input (hex root) = .ok () ↔
      proof.version = runtimeLogAccumulatorVersion ∧ proof.leafIndex < proof.treeSize ∧
        ∃ siblings, proof.path.mapM parseSibling = .ok siblings ∧
          climb (nodeHash sha256) proof.treeSize proof.leafIndex (leafHash sha256 input)
            siblings = some root := by
  simp only [verify, bind_eq_ok, ensure_eq_ok, parseDigest_hex, Except.ok.injEq, Prod.exists]
  constructor
  · rintro ⟨-, hversion, -, ⟨-, hindex⟩, _, rfl, value, last, hfold, rfl, rfl⟩
    rw [foldPath_eq_ok (by omega), show proof.treeSize - 1 + 1 = proof.treeSize by omega] at hfold
    exact ⟨hversion, hindex, hfold⟩
  · rintro ⟨hversion, hindex, hclimb⟩
    refine ⟨(), hversion, (), ⟨by omega, hindex⟩, _, rfl, root, 0, ?_, rfl, rfl⟩
    rw [foldPath_eq_ok (by omega), show proof.treeSize - 1 + 1 = proof.treeSize by omega]
    exact hclimb

theorem mapM_hex (digests : List Digest) : (digests.map hex).mapM parseSibling = .ok digests := by
  induction digests with
  | nil => rfl
  | cons digest rest ih =>
    rw [map_cons, mapM_cons, parseSibling, parseDigest_hex]
    rw [parseSibling] at ih
    simp only [ih]
    rfl

/-- The strings that the tree over some inputs hashes. -/
def hashedByTree (sha256 : List Byte → Digest) (inputs : List (List Byte)) : List (List Byte) :=
  inputs.map (0 :: ·) ++
    (treePairs (emptyRoot sha256) (nodeHash sha256) (inputs.map (leafHash sha256))).map
      fun pair => 1 :: (pair.1.1 ++ pair.2.1)

/-- A sibling as a leaf of what the verifier combines. -/
def parseTerm (sibling : String) : Except Error (Merkle.Term Digest) :=
  Merkle.Term.leaf <$> parseSibling sibling

/-- The strings that the verification of a proof hashes. -/
def hashedByProof (sha256 : List Byte → Digest) (proof : RuntimeInclusionProof)
    (input : List Byte) : List (List Byte) :=
  (0 :: input) ::
    match foldPath parseTerm Merkle.Term.node proof.leafIndex (proof.treeSize - 1)
        (.leaf (leafHash sha256 input)) proof.path with
    | .ok (term, _) =>
      (term.pairs (nodeHash sha256)).map fun pair => 1 :: (pair.1.1 ++ pair.2.1)
    | .error _ => []

/-- SHA-256 tells the strings hashed by a verification from those hashed by the
tree. -/
def CollisionFree (sha256 : List Byte → Digest) (inputs : List (List Byte))
    (proof : RuntimeInclusionProof) (input : List Byte) : Prop :=
  ∀ a ∈ hashedByProof sha256 proof input, ∀ b ∈ hashedByTree sha256 inputs,
    sha256 a = sha256 b → a = b

theorem mapM_parseTerm {path : List String} {siblings : List Digest}
    (h : path.mapM parseSibling = .ok siblings) :
    path.mapM parseTerm = .ok (siblings.map .leaf) := by
  induction path generalizing siblings with
  | nil =>
    obtain rfl : [] = siblings := by simpa [pure, Except.pure] using h
    rfl
  | cons sibling rest ih =>
    rw [mapM_cons, bind_eq_ok] at h
    obtain ⟨head, hhead, h⟩ := h
    rw [bind_eq_ok] at h
    obtain ⟨tail, htail, hcons⟩ := h
    obtain rfl : head :: tail = siblings := by simpa [pure, Except.pure] using hcons
    rw [mapM_cons, parseTerm, hhead]
    show (do let tail ← rest.mapM parseTerm; return _ :: tail) = _
    rw [ih htail]
    rfl

/-- Combinations that differ are hashed from strings that differ. -/
theorem pair_inj {p q : Digest × Digest}
    (h : (1 : Byte) :: (p.1.1 ++ p.2.1) = 1 :: (q.1.1 ++ q.2.1)) : p = q := by
  obtain ⟨hleft, hright⟩ := append_inj (List.cons.inj h).2 (by rw [p.1.2, q.1.2])
  exact Prod.ext (Subtype.ext hleft) (Subtype.ext hright)

theorem verify_sound {inputs : List (List Byte)} {proof : RuntimeInclusionProof}
    (hsize : proof.treeSize = inputs.length)
    (hverify : proof.verify sha256 input (hex (mth sha256 inputs)) = .ok ())
    (hfree : CollisionFree sha256 inputs proof input) :
    inputs[proof.leafIndex]? = some input := by
  obtain ⟨-, hindex, siblings, hsiblings, hclimb⟩ :=
    RuntimeInclusionProof.verify_eq_ok.mp hverify
  -- the combinations of the walk, as the terms it evaluates
  have hmap := @Merkle.climb_map _ _ Merkle.Term.node (nodeHash sha256)
    (Merkle.Term.eval (nodeHash sha256)) (fun _ _ => rfl) proof.treeSize proof.leafIndex
    (.leaf (leafHash sha256 input)) (siblings.map .leaf)
  rw [map_map, show (Merkle.Term.eval (nodeHash sha256)) ∘ Merkle.Term.leaf = id from rfl,
    map_id, Merkle.Term.eval, hclimb] at hmap
  obtain ⟨term, hterm, heval⟩ := Option.map_eq_some_iff.mp hmap.symm
  have hfold : foldPath parseTerm Merkle.Term.node proof.leafIndex (proof.treeSize - 1)
      (.leaf (leafHash sha256 input)) proof.path = .ok (term, 0) := by
    refine (foldPath_eq_ok (by omega)).mpr ⟨siblings.map .leaf, mapM_parseTerm hsiblings, ?_⟩
    rwa [show proof.treeSize - 1 + 1 = proof.treeSize by omega]
  have hhashed : hashedByProof sha256 proof input = (0 :: input) ::
      (term.pairs (nodeHash sha256)).map fun pair => 1 :: (pair.1.1 ++ pair.2.1) := by
    rw [hashedByProof, hfold]
  have hleaf := @Merkle.climb_sound _ (emptyRoot sha256) (nodeHash sha256)
    (inputs.map (leafHash sha256)) proof.leafIndex (leafHash sha256 input) siblings term
    (by rw [length_map]; omega) (by rw [length_map, ← hsize]; exact hterm) heval (by
      intro p hp q hq hhash
      refine pair_inj (hfree _ ?_ _ ?_ hhash)
      · rw [hhashed]
        exact mem_cons_of_mem _ (mem_map_of_mem hp)
      · exact mem_append_right _ (mem_map_of_mem hq))
  rw [getElem?_map, Option.map_eq_some_iff] at hleaf
  obtain ⟨stored, hstored, hhash⟩ := hleaf
  have heq := hfree (0 :: input) (by rw [hhashed]; exact mem_cons_self) (0 :: stored)
    (mem_append_left _ (mem_map_of_mem (mem_of_getElem? hstored))) hhash.symm
  rw [hstored, (List.cons.inj heq).2]

/-- From the stored subtrees every leaf of a prefix gets a proof that verifies. -/
theorem Stores.inclusionProof {inputs : List (List Byte)} {nodeAt : NodeSource} {n i : Nat}
    (h : Stores sha256 inputs n nodeAt) (hm : m ≤ n) (hn : n ≤ inputs.length) (hfit : m < 2 ^ 64)
    (hi : i < m) (hinput : inputs[i]? = some input) :
    ∃ proof, (accumulatorOf sha256 inputs m).inclusionProof sha256 i nodeAt = .ok proof ∧
      proof.treeSize = m ∧ proof.leafIndex = i ∧
      proof.verify sha256 input (hex (mth sha256 (inputs.take m))) = .ok () := by
  have hpath := @Stores.buildPath sha256 inputs nodeAt n h hn 0 m i
    ⟨Nat.zero_lt_of_lt hi, m, Nat.lt_two_pow_self.le, dvd_zero _⟩ (by omega) (Nat.zero_le _)
  rw [drop_zero, Nat.sub_zero] at hpath
  refine ⟨⟨runtimeLogAccumulatorVersion, m, i, (auditPath (emptyRoot sha256)
    (nodeHash sha256) ((inputs.take m).map (leafHash sha256)) i).map hex⟩, ?_, rfl, rfl, ?_⟩
  · simp only [RuntimeLogAccumulator.inclusionProof, bind_eq_ok, ensure_eq_ok]
    exact ⟨(), validate_accumulatorOf (hm.trans hn) hfit, (), hi, _, hpath, rfl⟩
  · refine RuntimeInclusionProof.verify_eq_ok.mpr ⟨rfl, hi, _, mapM_hex _, ?_⟩
    have hclimb := @Merkle.climb_auditPath _ (emptyRoot sha256) (nodeHash sha256)
      ((inputs.take m).map (leafHash sha256)) i (leafHash sha256 input)
      (by rw [getElem?_map, getElem?_take, if_pos hi, hinput]; rfl)
    rwa [length_map, length_take, min_eq_left (hm.trans hn)] at hclimb

/-- Appended leaf by leaf, the accumulator of a log has the root of RFC 9162. From
the subtrees emitted on the way every earlier accumulator is rebuilt, every leaf
of every prefix has a proof that verifies, and without a collision no other input
verifies in its place. -/
theorem accumulator_is_merkle_tree (sha256 : List Byte → Digest) (inputs : List (List Byte))
    (hfit : inputs.length < 2 ^ 64) :
    ∃ accumulator nodes,
      appendAll sha256 inputs = .ok (accumulator, nodes) ∧
      accumulator.root = hex (mth sha256 inputs) ∧
      ∀ m ≤ inputs.length, ∃ earlier emitted,
        appendAll sha256 (inputs.take m) = .ok (earlier, emitted) ∧
        RuntimeLogAccumulator.fromNodes sha256 m (hex (mth sha256 (inputs.take m)))
          (storedNodes nodes) = .ok earlier ∧
        ∀ i input, i < m → inputs[i]? = some input →
          (∃ proof, earlier.inclusionProof sha256 i (storedNodes nodes) = .ok proof ∧
            proof.treeSize = m ∧ proof.leafIndex = i ∧
            proof.verify sha256 input (hex (mth sha256 (inputs.take m))) = .ok ()) ∧
          ∀ (proof : RuntimeInclusionProof) (x : List Byte),
            proof.treeSize = m → proof.leafIndex = i →
            CollisionFree sha256 (inputs.take m) proof x →
            proof.verify sha256 x (hex (mth sha256 (inputs.take m))) = .ok () → x = input := by
  obtain ⟨nodes, hall, hnodes⟩ := @appendAll_take sha256 inputs inputs.length (le_refl _) hfit
  have hstores := stores_storedNodes hnodes
  rw [take_length] at hall
  refine ⟨_, nodes, hall, by rw [accumulatorOf, take_length], ?_⟩
  intro m hm
  obtain ⟨emitted, hearlier, -⟩ := @appendAll_take sha256 inputs m hm (by omega)
  refine ⟨_, emitted, hearlier, hstores.fromNodes hm hm (by omega), ?_⟩
  intro i input hi hinput
  have htake : (inputs.take m)[i]? = some input := by rw [getElem?_take, if_pos hi, hinput]
  have hlength : (inputs.take m).length = m := by rw [length_take]; omega
  refine ⟨hstores.inclusionProof hm (le_refl _) (by omega) hi hinput, ?_⟩
  intro proof x hsize hindex hfree hverify
  have hleaf := verify_sound (by rw [hlength, hsize]) hverify hfree
  rw [hindex, htake] at hleaf
  exact (Option.some.inj hleaf).symm

/-- A stand-in for SHA-256 that keeps the first bytes. -/
def firstBytes (bytes : List Byte) : Digest :=
  ⟨(bytes ++ List.replicate 32 0).take 32, by simp⟩

/-- The proof of the first of three leaves. -/
def firstOfThree : RuntimeInclusionProof where
  version := 1
  treeSize := 3
  leafIndex := 0
  path := [hex (leafHash firstBytes [2]), hex (leafHash firstBytes [3])]

theorem accumulator_is_merkle_tree_three :
    (∃ accumulator nodes,
      appendAll firstBytes [[1], [2], [3]] = .ok (accumulator, nodes) ∧
        accumulator.root = hex (mth firstBytes [[1], [2], [3]])) ∧
      CollisionFree firstBytes [[1], [2], [3]] firstOfThree [1] ∧
      firstOfThree.verify firstBytes [1] (hex (mth firstBytes [[1], [2], [3]])) = .ok () := by
  obtain ⟨accumulator, nodes, hall, hroot, -⟩ :=
    accumulator_is_merkle_tree firstBytes [[1], [2], [3]] (by decide)
  refine ⟨⟨accumulator, nodes, hall, hroot⟩, ?_, eq_ok_of_toOption (by decide +kernel)⟩
  unfold CollisionFree
  decide +kernel

end Proofs

end Rrflow.Kernel.AuthenticatedLog

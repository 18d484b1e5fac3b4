import Mathlib

/-!
Merkle trees over lists of any length, as in RFC 9162.

The root of a list splits it at the largest power of two below its length. An
audit path lists the siblings of a leaf from the bottom up, and `climb` folds it
into a root by looking only at the index of the leaf and the size of the tree:
level by level both are halved, and the last node of a level of odd length is
promoted without a sibling. The main fact is `climb_append`: the last sibling of
a path is the half of the tree that the leaf does not lie in.
-/

namespace Merkle

open List

/-- The largest power of two below `n`, for `n` at least two. -/
def split (n : ℕ) : ℕ := 2 ^ Nat.log 2 (n - 1)

theorem split_pos (n : ℕ) : 0 < split n := Nat.two_pow_pos _

theorem split_lt {n : ℕ} (h : 2 ≤ n) : split n < n := by
  have := Nat.pow_log_le_self 2 (show n - 1 ≠ 0 by omega)
  unfold split
  omega

theorem le_two_mul_split {n : ℕ} (h : 2 ≤ n) : n ≤ 2 * split n := by
  have := Nat.lt_pow_succ_log_self (b := 2) (by omega) (n - 1)
  rw [Nat.pow_succ] at this
  unfold split
  omega

theorem split_eq {n j : ℕ} (hlow : 2 ^ j < n) (hhigh : n ≤ 2 * 2 ^ j) : split n = 2 ^ j := by
  have hpos := Nat.two_pow_pos j
  have hlog : Nat.log 2 (n - 1) = j := by
    refine (Nat.log_eq_iff (Or.inr ⟨by omega, by omega⟩)).mpr ⟨by omega, ?_⟩
    rw [Nat.pow_succ]
    omega
  rw [split, hlog]

theorem split_half {n : ℕ} (h : 3 ≤ n) : split n = 2 * split ((n + 1) / 2) := by
  have hhalf : 2 ≤ (n + 1) / 2 := by omega
  have hlow := split_lt hhalf
  have hhigh := le_two_mul_split hhalf
  have hsucc : 2 * split ((n + 1) / 2) = 2 ^ (Nat.log 2 ((n + 1) / 2 - 1) + 1) := by
    rw [Nat.pow_succ, split]
    omega
  rw [hsucc]
  refine split_eq ?_ ?_ <;> rw [← hsucc] <;> omega

section Root

variable {H : Type} (empty : H) (node : H → H → H)

def root : List H → H
  | [] => empty
  | [leaf] => leaf
  | first :: second :: rest =>
    node (root ((first :: second :: rest).take (split (rest.length + 2))))
      (root ((first :: second :: rest).drop (split (rest.length + 2))))
  termination_by leaves => leaves.length
  decreasing_by
  · have := split_lt (n := rest.length + 2) (by omega)
    simp only [length_take, length_cons]
    omega
  · have := split_pos (rest.length + 2)
    simp only [length_drop, length_cons]
    omega

@[simp] theorem root_nil : root empty node [] = empty := by rw [root]

@[simp] theorem root_singleton (leaf : H) : root empty node [leaf] = leaf := by rw [root]

variable {empty node}

theorem root_split {leaves : List H} (h : 2 ≤ leaves.length) :
    root empty node leaves =
      node (root empty node (leaves.take (split leaves.length)))
        (root empty node (leaves.drop (split leaves.length))) := by
  match leaves, h with
  | first :: second :: rest, _ => rw [root]; rfl

/-- A full left part followed by at most as many leaves. -/
theorem root_append {left right : List H} {j : ℕ} (hleft : left.length = 2 ^ j)
    (hpos : right ≠ []) (hright : right.length ≤ 2 ^ j) :
    root empty node (left ++ right) = node (root empty node left) (root empty node right) := by
  have hlen := length_pos_of_ne_nil hpos
  have htwo := Nat.two_pow_pos j
  have hsplit : split (left ++ right).length = left.length := by
    rw [length_append, hleft]
    exact split_eq (by omega) (by omega)
  rw [root_split (by rw [length_append]; omega), hsplit, take_left, drop_left]

end Root

section Climb

variable {H : Type} (node : H → H → H)

/-- Folds the siblings of leaf `i` of `n` into the value of that leaf. -/
def climb (n i : ℕ) (value : H) (path : List H) : Option H :=
  if n ≤ 1 then
    match path with
    | [] => some value
    | _ :: _ => none
  else if i % 2 = 0 ∧ i = n - 1 then
    climb ((n + 1) / 2) (i / 2) value path
  else
    match path with
    | [] => none
    | sibling :: rest =>
      climb ((n + 1) / 2) (i / 2)
        (if i % 2 = 1 then node sibling value else node value sibling) rest
  termination_by n

variable {node}

theorem climb_one {n : ℕ} (h : n ≤ 1) (i : ℕ) (value : H) (path : List H) :
    climb node n i value path = if path = [] then some value else none := by
  rw [climb.eq_def, if_pos h]
  cases path <;> simp

variable {n i : ℕ}

/-- The last leaf of a level of odd length is promoted. -/
theorem climb_promoted (h : 2 ≤ n) (heven : i % 2 = 0) (hlast : i = n - 1) (value : H)
    (path : List H) : climb node n i value path = climb node ((n + 1) / 2) (i / 2) value path := by
  rw [climb.eq_def, if_neg (by omega), if_pos ⟨heven, hlast⟩]

theorem climb_cons (h : 2 ≤ n) (hpaired : ¬(i % 2 = 0 ∧ i = n - 1)) (value sibling : H)
    (rest : List H) : climb node n i value (sibling :: rest) =
      climb node ((n + 1) / 2) (i / 2)
        (if i % 2 = 1 then node sibling value else node value sibling) rest := by
  rw [climb, if_neg (by omega), if_neg hpaired]

theorem climb_nil (h : 2 ≤ n) (hi : i < n) (value : H) : climb node n i value [] = none := by
  induction n using Nat.strong_induction_on generalizing i with
  | _ n ih =>
    by_cases hpromoted : i % 2 = 0 ∧ i = n - 1
    · rw [climb_promoted h hpromoted.1 hpromoted.2]
      exact ih _ (by omega) (by omega) (by omega)
    · rw [climb, if_neg (by omega), if_neg hpromoted]

/-- The last sibling of a path stands for the half that the leaf is not in. -/
theorem climb_append (h : 2 ≤ n) (hi : i < n) (value top : H) (path : List H) :
    climb node n i value (path ++ [top]) =
      if i < split n then (climb node (split n) i value path).map (node · top)
      else (climb node (n - split n) (i - split n) value path).map (node top ·) := by
  induction n using Nat.strong_induction_on generalizing i value path with
  | _ n ih =>
    by_cases htwo : n = 2
    · subst htwo
      have hsplit : split 2 = 1 := by decide
      rw [hsplit]
      have hpaired : ¬(i % 2 = 0 ∧ i = 2 - 1) := by omega
      cases path with
      | nil =>
        rw [nil_append, climb_cons h hpaired, climb_one (by omega), climb_one (by omega),
          climb_one (by omega)]
        have hbit : i = 0 ∨ i = 1 := by omega
        obtain rfl | rfl := hbit <;> rfl
      | cons sibling rest =>
        rw [cons_append, climb_cons h hpaired, climb_one (by omega), climb_one (by omega),
          climb_one (by omega)]
        simp
    · -- one level up, both halves are half as wide and the leaf keeps its side
      have hhalf := split_half (n := n) (by omega)
      have hlow := split_lt h
      have hhigh := le_two_mul_split h
      have hpos := split_pos ((n + 1) / 2)
      have hup : ∀ (value : H) (path : List H), climb node ((n + 1) / 2) (i / 2) value
          (path ++ [top]) =
          if i / 2 < split ((n + 1) / 2) then
            (climb node (split ((n + 1) / 2)) (i / 2) value path).map (node · top)
          else (climb node ((n + 1) / 2 - split ((n + 1) / 2))
            (i / 2 - split ((n + 1) / 2)) value path).map (node top ·) :=
        fun value path => ih _ (by omega) (by omega) (by omega) value path
      by_cases hside : i < split n
      · have hpaired : ¬(i % 2 = 0 ∧ i = n - 1) := by omega
        have hpairedLeft : ¬(i % 2 = 0 ∧ i = split n - 1) := by omega
        rw [if_pos hside]
        cases path with
        | nil =>
          rw [nil_append, climb_cons h hpaired, climb_nil (by omega) (by omega),
            climb_nil (by omega) hside]
          rfl
        | cons sibling rest =>
          rw [cons_append, climb_cons h hpaired, hup, if_pos (by omega),
            climb_cons (by omega) hpairedLeft,
            show (split n + 1) / 2 = split ((n + 1) / 2) by omega]
      · have hshift : (i - split n) / 2 = i / 2 - split ((n + 1) / 2) := by omega
        have hparity : (i - split n) % 2 = i % 2 := by omega
        have hsize : (n - split n + 1) / 2 = (n + 1) / 2 - split ((n + 1) / 2) := by omega
        rw [if_neg hside]
        by_cases hpromoted : i % 2 = 0 ∧ i = n - 1
        · rw [climb_promoted h hpromoted.1 hpromoted.2, hup, if_neg (by omega), ← hshift, ← hsize]
          by_cases hone : n - split n = 1
          · rw [hone, climb_one (by omega), climb_one (by omega)]
          · rw [climb_promoted (n := n - split n) (by omega) (by omega) (by omega)]
        · have hpairedRight : ¬((i - split n) % 2 = 0 ∧ i - split n = n - split n - 1) := by
            omega
          cases path with
          | nil =>
            rw [nil_append, climb_cons h hpromoted, climb_nil (by omega) (by omega),
              climb_nil (by omega) (by omega)]
            rfl
          | cons sibling rest =>
            rw [cons_append, climb_cons h hpromoted, hup, if_neg (by omega),
              climb_cons (by omega) hpairedRight, hparity, hshift, hsize]

end Climb

section Map

variable {H K : Type} {node : H → H → H} {node' : K → K → K} {f : H → K}

theorem climb_map (hf : ∀ a b, f (node a b) = node' (f a) (f b)) (n i : ℕ) (value : H)
    (path : List H) :
    climb node' n i (f value) (path.map f) = (climb node n i value path).map f := by
  induction n using Nat.strong_induction_on generalizing i value path with
  | _ n ih =>
    by_cases hone : n ≤ 1
    · rw [climb_one hone, climb_one hone]
      cases path <;> simp
    · by_cases hpromoted : i % 2 = 0 ∧ i = n - 1
      · rw [climb_promoted (by omega) hpromoted.1 hpromoted.2,
          climb_promoted (by omega) hpromoted.1 hpromoted.2, ih _ (by omega)]
      · cases path with
        | nil =>
          rw [map_nil, climb.eq_def, if_neg hone, if_neg hpromoted, climb.eq_def,
            if_neg hone, if_neg hpromoted]
          rfl
        | cons sibling rest =>
          rw [map_cons, climb_cons (by omega) hpromoted, climb_cons (by omega) hpromoted,
            ← ih _ (by omega)]
          split <;> rw [hf]

theorem root_map (hf : ∀ a b, f (node a b) = node' (f a) (f b)) (empty : H) (leaves : List H) :
    root (f empty) node' (leaves.map f) = f (root empty node leaves) := by
  induction leaves using (measure List.length).wf.induction with
  | _ leaves ih =>
    by_cases htwo : 2 ≤ leaves.length
    · have hlow := split_lt htwo
      have hpos := split_pos leaves.length
      rw [root_split (by rwa [length_map]), root_split htwo, hf, length_map,
        ← map_take, ← map_drop, ih _ ?_, ih _ ?_]
      · show List.length _ < _
        rw [length_drop]
        omega
      · show List.length _ < _
        rw [length_take]
        omega
    · cases leaves with
      | nil => simp
      | cons leaf rest =>
        obtain rfl : rest = [] := by
          rw [length_cons] at htwo
          exact eq_nil_of_length_eq_zero (by omega)
        simp

end Map

/-! ### Completeness and soundness of audit paths -/

/-- What is combined with what on the way to a root. -/
inductive Term (H : Type)
  | leaf (value : H)
  | node (left right : Term H)

namespace Term

variable {H : Type} (node : H → H → H)

def eval : Term H → H
  | .leaf value => value
  | .node left right => node left.eval right.eval

/-- The arguments of every combination. -/
def pairs : Term H → List (H × H)
  | .leaf _ => []
  | .node left right => (left.eval node, right.eval node) :: (left.pairs ++ right.pairs)

end Term

section Audit

variable {H : Type} {empty : H} {node : H → H → H}

/-- The tree over a list of leaves, written out. -/
def treeTerm (empty : H) (leaves : List H) : Term H :=
  root (Term.leaf empty) Term.node (leaves.map Term.leaf)

/-- The combinations of the tree over a list of leaves. -/
def treePairs (empty : H) (node : H → H → H) (leaves : List H) : List (H × H) :=
  (treeTerm empty leaves).pairs node

theorem eval_treeTerm (leaves : List H) :
    (treeTerm empty leaves).eval node = root empty node leaves := by
  rw [treeTerm, ← @root_map _ _ Term.node node (Term.eval node) (fun _ _ => rfl), map_map]
  show root empty node (leaves.map id) = _
  rw [map_id]

variable {leaves : List H}

theorem treeTerm_split (h : 2 ≤ leaves.length) :
    treeTerm empty leaves = .node (treeTerm empty (leaves.take (split leaves.length)))
      (treeTerm empty (leaves.drop (split leaves.length))) := by
  rw [treeTerm, root_split (by rwa [length_map]), length_map, ← map_take, ← map_drop]
  rfl

theorem treePairs_split (h : 2 ≤ leaves.length) : treePairs empty node leaves =
      (root empty node (leaves.take (split leaves.length)),
          root empty node (leaves.drop (split leaves.length))) ::
        (treePairs empty node (leaves.take (split leaves.length)) ++
          treePairs empty node (leaves.drop (split leaves.length))) := by
  rw [treePairs, treeTerm_split h, Term.pairs, eval_treeTerm, eval_treeTerm]
  rfl

/-- A climb that reaches the root of a tree starts at its leaf, unless one of its
combinations collides with a different one of the tree. -/
theorem climb_sound {i : ℕ} {value : H} {path : List H} {term : Term H}
    (hi : i < leaves.length)
    (hclimb : climb Term.node leaves.length i (.leaf value) (path.map .leaf) = some term)
    (heval : term.eval node = root empty node leaves)
    (hfree : ∀ p ∈ term.pairs node, ∀ q ∈ treePairs empty node leaves,
      node p.1 p.2 = node q.1 q.2 → p = q) : leaves[i]? = some value := by
  induction leaves using (measure List.length).wf.induction generalizing i path term with
  | _ leaves ih =>
    by_cases htwo : 2 ≤ leaves.length
    · have hlow := split_lt htwo
      have hpos := split_pos leaves.length
      -- the last sibling is combined at the top, so peel it together with the root
      rcases eq_nil_or_concat path with rfl | ⟨init, top, rfl⟩
      · rw [map_nil, climb_nil htwo hi] at hclimb
        exact absurd hclimb (by simp)
      · rw [concat_eq_append, map_append, map_cons, map_nil,
          climb_append htwo hi] at hclimb
        rw [root_split htwo] at heval
        rw [treePairs_split htwo] at hfree
        by_cases hside : i < split leaves.length
        · rw [if_pos hside, Option.map_eq_some_iff] at hclimb
          obtain ⟨below, hbelow, rfl⟩ := hclimb
          have hlen : (leaves.take (split leaves.length)).length = split leaves.length := by
            rw [length_take]
            omega
          have heq := hfree (below.eval node, top) (by simp [Term.pairs, Term.eval]) _
            mem_cons_self heval
          have hleaf := ih (leaves.take (split leaves.length)) (by show List.length _ < _; omega)
            (i := i) (by omega) (by rw [hlen]; exact hbelow) (congrArg Prod.fst heq)
            (fun p hp q hq => hfree p (by simp [Term.pairs, hp]) q (by simp [hq]))
          rwa [getElem?_take, if_pos hside] at hleaf
        · rw [if_neg hside, Option.map_eq_some_iff] at hclimb
          obtain ⟨below, hbelow, rfl⟩ := hclimb
          have hlen : (leaves.drop (split leaves.length)).length =
            leaves.length - split leaves.length := by rw [length_drop]
          have heq := hfree (top, below.eval node) (by simp [Term.pairs, Term.eval]) _
            mem_cons_self heval
          have hleaf := ih (leaves.drop (split leaves.length)) (by show List.length _ < _; omega)
            (i := i - split leaves.length) (by omega) (by rw [hlen]; exact hbelow)
            (congrArg Prod.snd heq)
            (fun p hp q hq => hfree p (by simp [Term.pairs, hp]) q (by simp [hq]))
          rwa [getElem?_drop,
            show split leaves.length + (i - split leaves.length) = i by omega] at hleaf
    · obtain ⟨only, rfl⟩ := length_eq_one_iff.mp (show leaves.length = 1 by omega)
      obtain rfl : i = 0 := by simpa using hi
      rw [climb_one (by simp)] at hclimb
      cases path with
      | nil =>
        obtain rfl : Term.leaf value = term := by simpa using hclimb
        rw [root_singleton] at heval
        rw [← heval]
        rfl
      | cons => exact absurd hclimb (by simp)

/-- The audit path of leaf `i`: the siblings on its way up, the half of the whole
tree last. -/
def auditPath (empty : H) (node : H → H → H) (leaves : List H) (i : ℕ) : List H :=
  if _htwo : 2 ≤ leaves.length then
    if i < split leaves.length then
      auditPath empty node (leaves.take (split leaves.length)) i ++
        [root empty node (leaves.drop (split leaves.length))]
    else
      auditPath empty node (leaves.drop (split leaves.length)) (i - split leaves.length) ++
        [root empty node (leaves.take (split leaves.length))]
  else []
  termination_by leaves.length
  decreasing_by
  · have := split_lt _htwo
    simp only [length_take]
    omega
  · have := split_pos leaves.length
    simp only [length_drop]
    omega

theorem climb_auditPath {i : ℕ} {leaf : H} (hleaf : leaves[i]? = some leaf) :
    climb node leaves.length i leaf (auditPath empty node leaves i) =
      some (root empty node leaves) := by
  obtain ⟨hi, -⟩ := List.getElem?_eq_some_iff.mp hleaf
  induction leaves using (measure List.length).wf.induction generalizing i with
  | _ leaves ih =>
    rw [auditPath]
    by_cases htwo : 2 ≤ leaves.length
    · have hlow := split_lt htwo
      have hpos := split_pos leaves.length
      rw [dif_pos htwo, root_split htwo]
      by_cases hside : i < split leaves.length
      · have hstep := ih (leaves.take (split leaves.length))
          (by show List.length _ < _; rw [length_take]; omega) (i := i)
          (by rw [getElem?_take, if_pos hside, hleaf])
          (by rw [length_take]; omega)
        rw [length_take, min_eq_left (by omega)] at hstep
        rw [if_pos hside, climb_append htwo hi, if_pos hside, hstep]
        rfl
      · have hstep := ih (leaves.drop (split leaves.length))
          (by show List.length _ < _; rw [length_drop]; omega)
          (i := i - split leaves.length)
          (by rw [getElem?_drop, show split leaves.length + (i - split leaves.length) = i by
                omega, hleaf])
          (by rw [length_drop]; omega)
        rw [length_drop] at hstep
        rw [if_neg hside, climb_append htwo hi, if_neg hside, hstep]
        rfl
    · obtain ⟨only, rfl⟩ := length_eq_one_iff.mp (show leaves.length = 1 by omega)
      obtain rfl : i = 0 := by simpa using hi
      obtain rfl : only = leaf := by simpa using hleaf
      rw [dif_neg htwo, climb_one (by simp), if_pos rfl, root_singleton]

end Audit

end Merkle

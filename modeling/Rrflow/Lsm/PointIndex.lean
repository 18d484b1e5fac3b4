import Rrflow.Lsm.Manifest

/-!
The interval index of point reads.

Segments are sorted by first key and form a balanced search tree, the midpoint
of a slice being its root. Every node also knows the segment of its subtree with
the furthest last key, so that a lookup leaves out subtrees that end before the
key, and right subtrees that begin after it. The lookup finds exactly the
segments whose key bounds contain the key (`mem_visit_new`).
-/

namespace Rrflow.Lsm

open List

/-- A subtree: the ordinal of the root segment, the ordinal of the segment that
reaches furthest, and the two halves of the slice. -/
inductive PointIndex
  | empty
  | node (segment furthestEnd : Nat) (left right : PointIndex)
  deriving DecidableEq, Repr

namespace PointIndex

def boundsAt (descriptors : List SegmentDescriptor) (ordinal : Nat) : Bytes × Bytes :=
  (descriptors[ordinal]?).elim ([], []) (fun segment => (segment.firstKey, segment.lastKey))

/-- Sort order of the ordinals: by first key, then by ordinal. -/
def ordinalLe (descriptors : List SegmentDescriptor) (a b : Nat) : Prop :=
  (boundsAt descriptors a).1 < (boundsAt descriptors b).1 ∨
    (boundsAt descriptors a).1 = (boundsAt descriptors b).1 ∧ a ≤ b

instance (descriptors : List SegmentDescriptor) : DecidableRel (ordinalLe descriptors) :=
  fun a b => inferInstanceAs (Decidable ((boundsAt descriptors a).1 < (boundsAt descriptors b).1 ∨
    (boundsAt descriptors a).1 = (boundsAt descriptors b).1 ∧ a ≤ b))

/-- The segment of a subtree that reaches furthest. -/
def furthest : PointIndex → Option Nat
  | empty => none
  | node _ furthestEnd _ _ => some furthestEnd

/-- The furthest of the root and the two subtrees; the root wins ties. -/
def augmented (descriptors : List SegmentDescriptor) (root : Nat) (left right : PointIndex) :
    Nat :=
  [left.furthest, right.furthest].reduceOption.foldl (fun furthest candidate =>
    if (boundsAt descriptors furthest).2 < (boundsAt descriptors candidate).2 then candidate
    else furthest) root

/-- The tree of a sorted slice of ordinals; `fuel` bounds its height. -/
def augment (descriptors : List SegmentDescriptor) : Nat → List Nat → PointIndex
  | 0, _ => empty
  | fuel + 1, ordinals =>
    match ordinals.drop (ordinals.length / 2) with
    | [] => empty
    | root :: after =>
      let left := augment descriptors fuel (ordinals.take (ordinals.length / 2))
      let right := augment descriptors fuel after
      node root (augmented descriptors root left right) left right

def new (descriptors : List SegmentDescriptor) : PointIndex :=
  augment descriptors descriptors.length
    ((List.range descriptors.length).insertionSort (ordinalLe descriptors))

/-- The candidates of a key, in the order they are visited. -/
def visit (descriptors : List SegmentDescriptor) (key : Bytes) : PointIndex → List Nat
  | empty => []
  | node segment furthestEnd left right =>
    if (boundsAt descriptors furthestEnd).2 < key then []
    else
      let bounds := boundsAt descriptors segment
      visit descriptors key left ++
        if bounds.1 ≤ key then
          (if key ≤ bounds.2 then [segment] else []) ++ visit descriptors key right
        else []

/-! ### The lookup finds the segments that contain the key -/

def ordinals : PointIndex → List Nat
  | empty => []
  | node segment _ left right => left.ordinals ++ segment :: right.ordinals

variable {descriptors : List SegmentDescriptor}

theorem le_augmented (descriptors : List SegmentDescriptor) (root : Nat) (left right : PointIndex) :
    (boundsAt descriptors root).2 ≤
        (boundsAt descriptors (augmented descriptors root left right)).2 ∧
      ∀ child ∈ [left, right], ∀ far, child.furthest = some far →
        (boundsAt descriptors far).2 ≤
          (boundsAt descriptors (augmented descriptors root left right)).2 := by
  unfold augmented
  cases hl : left.furthest <;> cases hr : right.furthest <;>
    simp only [List.reduceOption, List.filterMap, id, List.foldl] <;>
    grind

theorem ordinals_augment {fuel : Nat} {l : List Nat} (h : l.length ≤ fuel) :
    (augment descriptors fuel l).ordinals = l := by
  induction fuel generalizing l with
  | zero =>
    have : l = [] := length_eq_zero_iff.mp (Nat.le_zero.mp h)
    subst this
    rfl
  | succ fuel ih =>
    simp only [augment]
    cases hdrop : l.drop (l.length / 2) with
    | nil =>
      have hlen := congrArg List.length hdrop
      rw [length_drop, length_nil] at hlen
      have : l = [] := length_eq_zero_iff.mp (by omega)
      subst this
      rfl
    | cons root after =>
      have hlen := congrArg List.length hdrop
      rw [length_drop, length_cons] at hlen
      have htake := take_append_drop (l.length / 2) l
      rw [hdrop] at htake
      simp only [ordinals]
      rw [ih (by rw [length_take]; omega), ih (by omega), htake]

theorem ordinalLe_iff {a b : Nat} : ordinalLe descriptors a b ↔
    toLex ((boundsAt descriptors a).1, a) ≤ toLex ((boundsAt descriptors b).1, b) := by
  rw [Prod.Lex.toLex_le_toLex]
  rfl

theorem ordinals_new :
    (new descriptors).ordinals =
      (List.range descriptors.length).insertionSort (ordinalLe descriptors) :=
  ordinals_augment (by rw [length_insertionSort, length_range])

def Sorted (descriptors : List SegmentDescriptor) (index : PointIndex) : Prop :=
  index.ordinals.Pairwise fun a b => (boundsAt descriptors a).1 ≤ (boundsAt descriptors b).1

theorem sorted_new : Sorted descriptors (new descriptors) := by
  rw [Sorted, ordinals_new]
  have : Std.Total (ordinalLe descriptors) :=
    ⟨fun a b => by simpa only [ordinalLe_iff] using le_total _ _⟩
  have : IsTrans Nat (ordinalLe descriptors) :=
    ⟨fun a b c => by simpa only [ordinalLe_iff] using le_trans⟩
  refine (pairwise_insertionSort (ordinalLe descriptors) _).imp ?_
  rintro a b (h | ⟨h, -⟩)
  · exact h.le
  · exact h.le

theorem Sorted.children {segment furthestEnd : Nat} {left right : PointIndex}
    (h : Sorted descriptors (node segment furthestEnd left right)) :
    Sorted descriptors left ∧ Sorted descriptors right ∧
      ∀ i ∈ right.ordinals, (boundsAt descriptors segment).1 ≤ (boundsAt descriptors i).1 := by
  simp only [Sorted, ordinals, pairwise_append, pairwise_cons] at h
  exact ⟨h.1, h.2.1.2, h.2.1.1⟩

/-- Every node of a built tree knows how far its subtree reaches. -/
def Augmented (descriptors : List SegmentDescriptor) : PointIndex → Prop
  | empty => True
  | node segment furthestEnd left right =>
    (∀ i ∈ (node segment furthestEnd left right).ordinals,
      (boundsAt descriptors i).2 ≤ (boundsAt descriptors furthestEnd).2) ∧
    Augmented descriptors left ∧ Augmented descriptors right

theorem Augmented.le_furthest {index : PointIndex} (h : Augmented descriptors index) {i : Nat}
    (hi : i ∈ index.ordinals) : ∃ far, index.furthest = some far ∧
      (boundsAt descriptors i).2 ≤ (boundsAt descriptors far).2 := by
  cases index with
  | empty => cases hi
  | node segment far left right => exact ⟨far, rfl, h.1 i hi⟩

theorem augmented_augment (fuel : Nat) (l : List Nat) :
    Augmented descriptors (augment descriptors fuel l) := by
  induction fuel generalizing l with
  | zero => trivial
  | succ fuel ih =>
    simp only [augment]
    split
    · trivial
    · rename_i root after _
      obtain ⟨hroot, hchild⟩ := le_augmented descriptors root
        (augment descriptors fuel (l.take (l.length / 2))) (augment descriptors fuel after)
      refine ⟨fun i hi => ?_, ih _, ih _⟩
      simp only [ordinals, mem_append, mem_cons] at hi
      rcases hi with hi | rfl | hi
      · obtain ⟨far, hfar, hle⟩ := (ih _).le_furthest hi
        exact hle.trans (hchild _ (by simp) far hfar)
      · exact hroot
      · obtain ⟨far, hfar, hle⟩ := (ih _).le_furthest hi
        exact hle.trans (hchild _ (by simp) far hfar)

theorem mem_visit {index : PointIndex} {key : Bytes} {i : Nat}
    (hsorted : Sorted descriptors index) (haug : Augmented descriptors index) :
    i ∈ index.visit descriptors key ↔
      i ∈ index.ordinals ∧ (boundsAt descriptors i).1 ≤ key ∧ key ≤ (boundsAt descriptors i).2 := by
  induction index with
  | empty => simp [visit, ordinals]
  | node segment furthestEnd left right ihl ihr =>
    obtain ⟨hl, hr, hroot⟩ := hsorted.children
    obtain ⟨hreach, hauL, hauR⟩ := haug
    simp only [visit]
    split
    · rename_i hlt
      -- the whole subtree ends before the key
      simp only [not_mem_nil, false_iff, not_and, not_le]
      intro hi _
      exact (hreach i hi).trans_lt hlt
    · simp only [ordinals, mem_append, mem_cons, ihl hl hauL, or_and_right]
      refine or_congr_right ?_
      split
      · rw [mem_append, ihr hr hauR]
        refine or_congr_left ?_
        split
        · rw [mem_singleton]
          exact ⟨fun heq => ⟨heq, heq ▸ ⟨‹_›, ‹_›⟩⟩, And.left⟩
        · next hlast => exact iff_of_false not_mem_nil fun h => hlast (h.1 ▸ h.2.2)
      · next hfirst =>
          -- the root and everything right of it begin after the key
          refine iff_of_false not_mem_nil ?_
          rintro (⟨rfl, hle, -⟩ | ⟨hi, hle, -⟩)
          · exact hfirst hle
          · exact hfirst ((hroot i hi).trans hle)

/-- The index visits exactly the segments whose bounds contain the key. -/
theorem mem_visit_new {key : Bytes} {i : Nat} :
    i ∈ (new descriptors).visit descriptors key ↔
      ∃ segment, descriptors[i]? = some segment ∧
        segment.firstKey ≤ key ∧ key ≤ segment.lastKey := by
  rw [mem_visit sorted_new (augmented_augment _ _), ordinals_new,
    (perm_insertionSort _ _).mem_iff, mem_range]
  constructor
  · rintro ⟨hlt, hb⟩
    refine ⟨descriptors[i], getElem?_eq_getElem hlt, ?_⟩
    simpa [boundsAt, getElem?_eq_getElem hlt] using hb
  · rintro ⟨segment, hget, hb⟩
    obtain ⟨hlt, rfl⟩ := List.getElem?_eq_some_iff.mp hget
    exact ⟨hlt, by simpa [boundsAt, hget] using hb⟩

end PointIndex

end Rrflow.Lsm

import Rrflow.Lib.Effect
import Rrflow.Lsm.PointIndex

/-!
The point index as it is stored and looked up.

The nodes are one vector, sorted by first key, in which the midpoint of every slice is the
root of its subtree. Building the index and looking up a key split the vector into the same
slices, so the vector is the tree of `PointIndex` in order (`newNodes_eq`), and a lookup
calls its candidates in the order in which that tree is visited (`exists_walk_augment`).
-/

namespace Rrflow.Lsm.PointIndex

open List

/-- A node of the vector, by the ordinals of segments. -/
structure Node where
  segment : Nat
  furthestEnd : Nat

/-- Sets the furthest ends of a slice and returns that of its root; `fuel` bounds the height
of the subtree. -/
def augmentNodes (descriptors : List SegmentDescriptor) : Nat → List Node → List Node × Option Nat
  | 0, _ => ([], none)
  | fuel + 1, nodes =>
    match nodes.drop (nodes.length / 2) with
    | [] => ([], none)
    | root :: after =>
      let left := augmentNodes descriptors fuel (nodes.take (nodes.length / 2))
      let right := augmentNodes descriptors fuel after
      let furthest := [left.2, right.2].reduceOption.foldl (fun furthest candidate =>
        if (boundsAt descriptors furthest).2 < (boundsAt descriptors candidate).2 then candidate
        else furthest) root.segment
      (left.1 ++ { root with furthestEnd := furthest } :: right.1, some furthest)

def newNodes (descriptors : List SegmentDescriptor) : List Node :=
  (augmentNodes descriptors descriptors.length
    (((List.range descriptors.length).map fun segment => ⟨segment, segment⟩).insertionSort
      fun a b => ordinalLe descriptors a.segment b.segment)).1

section Walk

variable {σ ε : Type}

/-- The lookup in a slice: `candidate` may fail and change its state. The number of nodes that
were visited is returned. -/
def walk (descriptors : List SegmentDescriptor) (key : Bytes) (candidate : Nat → Eff σ ε Unit) :
    Nat → List Node → Eff σ ε Nat
  | 0, _ => pure 0
  | fuel + 1, nodes =>
    match nodes.drop (nodes.length / 2) with
    | [] => pure 0
    | root :: after => do
      if (boundsAt descriptors root.furthestEnd).2 < key then return 1
      let visited ← walk descriptors key candidate fuel (nodes.take (nodes.length / 2))
      let bounds := boundsAt descriptors root.segment
      if bounds.1 ≤ key then
        if key ≤ bounds.2 then candidate root.segment
        let more ← walk descriptors key candidate fuel after
        return 1 + visited + more
      return 1 + visited

def visitNodes (descriptors : List SegmentDescriptor) (key : Bytes)
    (candidate : Nat → Eff σ ε Unit) (nodes : List Node) : Eff σ ε Nat :=
  walk descriptors key candidate nodes.length nodes

end Walk

def nodes : PointIndex → List Node
  | empty => []
  | node segment furthestEnd left right => left.nodes ++ ⟨segment, furthestEnd⟩ :: right.nodes

variable {descriptors : List SegmentDescriptor}

theorem map_segment_nodes (index : PointIndex) : index.nodes.map Node.segment = index.ordinals := by
  induction index with
  | empty => rfl
  | node segment furthestEnd left right ihl ihr =>
    rw [nodes, map_append, map_cons, ihl, ihr, ordinals]

theorem length_nodes_augment {fuel : Nat} {l : List Nat} (h : l.length ≤ fuel) :
    (augment descriptors fuel l).nodes.length = l.length := by
  rw [← length_map Node.segment, map_segment_nodes, ordinals_augment h]

theorem augmentNodes_map (fuel : Nat) (l : List Nat) :
    augmentNodes descriptors fuel (l.map fun segment => ⟨segment, segment⟩) =
      ((augment descriptors fuel l).nodes, (augment descriptors fuel l).furthest) := by
  induction fuel generalizing l with
  | zero => rfl
  | succ fuel ih =>
    simp only [augmentNodes, augment, length_map, ← map_drop, ← map_take]
    cases l.drop (l.length / 2) with
    | nil => rfl
    | cons root after =>
      simp only [map_cons, ih]
      rfl

theorem newNodes_eq : newNodes descriptors = (new descriptors).nodes := by
  rw [newNodes, ← map_insertionSort (ordinalLe descriptors), augmentNodes_map, new]
  exact fun _ _ _ _ => Iff.rfl

theorem visit_sublist (index : PointIndex) (key : Bytes) :
    index.visit descriptors key <+ index.ordinals := by
  induction index with
  | empty => exact nil_sublist _
  | node segment furthestEnd left right ihl ihr =>
    rw [visit, ordinals]
    split
    · exact nil_sublist _
    · refine ihl.append ?_
      split
      · refine (Sublist.append ?_ ihr : _ <+ [segment] ++ right.ordinals)
        split
        · exact Sublist.refl _
        · exact nil_sublist _
      · exact nil_sublist _

/-- The slices of a lookup are those that the tree was built from. -/
theorem exists_walk_augment (key : Bytes) {fuel : Nat} {l : List Nat} (h : l.length ≤ fuel) :
    ∃ visited, ∀ {σ ε : Type} (candidate : Nat → Eff σ ε Unit),
      walk descriptors key candidate fuel (augment descriptors fuel l).nodes =
        (do ((augment descriptors fuel l).visit descriptors key).forM candidate; return visited) := by
  induction fuel generalizing l with
  | zero => exact ⟨0, fun _ => rfl⟩
  | succ fuel ih =>
    have hlength := @length_nodes_augment descriptors _ _ h
    simp only [walk, hlength]
    simp only [augment]
    cases hdrop : l.drop (l.length / 2) with
    | nil => exact ⟨0, fun _ => by simp [nodes, visit]⟩
    | cons root after =>
      have hafter : after.length ≤ fuel := by
        have := congrArg length hdrop
        rw [length_drop, length_cons] at this
        omega
      have hbefore : (l.take (l.length / 2)).length = l.length / 2 := by
        rw [length_take]
        omega
      have hfuel : (l.take (l.length / 2)).length ≤ fuel := by omega
      have hleft := @length_nodes_augment descriptors _ _ hfuel
      rw [hbefore] at hleft
      obtain ⟨leftVisits, hleftWalk⟩ := ih hfuel
      obtain ⟨rightVisits, hrightWalk⟩ := ih hafter
      simp only [nodes, drop_left' hleft, take_left' hleft, visit, hleftWalk, hrightWalk]
      split_ifs
      · exact ⟨1, fun _ => by simp⟩
      · exact ⟨1 + leftVisits + rightVisits, fun _ => by simp⟩
      · exact ⟨1 + leftVisits + rightVisits, fun _ => by simp⟩
      · exact ⟨1 + leftVisits, fun _ => by simp⟩

/-- A lookup calls its candidates with the ordinals of exactly the segments whose bounds have
the key, each once, and ends with the first error. -/
theorem visitNodes_calls (descriptors : List SegmentDescriptor) (key : Bytes) :
    ∃ (ordinals : List Nat) (visited : Nat), ordinals.Nodup ∧
      (∀ i, i ∈ ordinals ↔ ∃ segment, descriptors[i]? = some segment ∧
        segment.firstKey ≤ key ∧ key ≤ segment.lastKey) ∧
      ∀ {σ ε : Type} (candidate : Nat → Eff σ ε Unit),
        visitNodes descriptors key candidate (newNodes descriptors) =
          (do ordinals.forM candidate; return visited) := by
  have hlength : ((List.range descriptors.length).insertionSort (ordinalLe descriptors)).length =
      descriptors.length := by rw [length_insertionSort, length_range]
  obtain ⟨visited, hwalk⟩ := @exists_walk_augment descriptors key _ _ hlength.le
  refine ⟨(new descriptors).visit descriptors key, visited, ?_, fun _ => mem_visit_new, ?_⟩
  · refine (visit_sublist _ key).nodup ?_
    rw [ordinals_new]
    exact (perm_insertionSort _ _).nodup_iff.mpr nodup_range
  · intro σ ε candidate
    have hnodes : (newNodes descriptors).length = descriptors.length := by
      rw [newNodes_eq, new, length_nodes_augment hlength.le, hlength]
    rw [visitNodes, hnodes, newNodes_eq]
    exact hwalk candidate

end Rrflow.Lsm.PointIndex

import Rrflow.Kernel.AuthenticatedLogSpec
import Rrflow.Store.ChangeFeed

/-!
The leaves of the store and the tree of the kernel.

The store's model keeps the changes of the log as a list and looks a change up where the
code walks a tree. Here the list is the log that the kernel's accumulator was fed with:
what the lookups answer is what the frontier, the stored nodes and the inclusion proofs
answer.
-/

namespace Rrflow.Store

open Kernel AuthenticatedLog Checks List

variable {externals : Externals} {state : State}

theorem Externals.root_take (size : Nat) : externals.digests.root (state.log.take size) =
    hex (mth externals.digests.sha256 ((state.log.map externals.digests.bytes).take size)) := by
  rw [externals.digests.root_eq, map_take]

theorem Whole.verifyInclusion_iff (h : Whole externals state) {size leaf : Nat}
    {change : RuntimeChange} :
    verifyInclusion externals.digests state size leaf change = .ok () ↔
      leaf < size ∧ (change.verifyDigest externals.digests ∧ change.cursor = leaf + 1) ∧
        state.log[leaf]? = some change := by
  simp [verifyInclusion, bind_eq_ok, h.accumulator]

/-- The list of leaves stands for the kernel's tree: the accumulator that the changes of a
reachable log were appended to has its size and root; a retained root is accepted exactly if
the accumulator of that size can be rebuilt from the stored nodes; and a change is found in
a retained tree exactly if it passes the inclusion proof of its leaf, as far as neither
SHA-256 nor the bytes of the changes collide. -/
theorem leaves_are_merkle_tree (h : Reachable externals state) :
    ∃ accumulator nodes,
      RuntimeLogAccumulator.appendAll externals.digests.sha256
        (state.log.map externals.digests.bytes) = .ok (accumulator, nodes) ∧
      accumulator.treeSize = state.cursor ∧
      accumulator.root = (storedLog state).root externals.digests ∧
      (∀ change, change.cursor ≠ 0 →
        ((storedLog state).verifyChange externals.digests change = .ok () ↔
          verifyInclusion externals.digests state state.cursor (change.cursor - 1) change =
            .ok ())) ∧
      ∀ size ≤ state.cursor, ∀ root,
        ((storedLog state).checkRetained externals.digests size (hex root) = .ok () ↔
          ∃ retained, RuntimeLogAccumulator.fromNodes externals.digests.sha256 size (hex root)
            (storedNodes nodes) = .ok retained) ∧
        ∀ retained leaf, RuntimeLogAccumulator.fromNodes externals.digests.sha256 size (hex root)
            (storedNodes nodes) = .ok retained → leaf < size →
          ∃ proof, retained.inclusionProof externals.digests.sha256 leaf (storedNodes nodes) =
              .ok proof ∧
            ∀ change, change.verifyDigest externals.digests → change.cursor = leaf + 1 →
              (verifyInclusion externals.digests state size leaf change = .ok () →
                proof.verify externals.digests.sha256 (externals.digests.bytes change)
                  (hex root) = .ok ()) ∧
              (proof.verify externals.digests.sha256 (externals.digests.bytes change)
                  (hex root) = .ok () →
                CollisionFree externals.digests.sha256
                  ((state.log.map externals.digests.bytes).take size) proof
                  (externals.digests.bytes change) →
                (∀ stored ∈ state.log, externals.digests.bytes stored =
                  externals.digests.bytes change → stored = change) →
                verifyInclusion externals.digests state size leaf change = .ok ()) := by
  have hwhole := h.whole
  have hlength : (state.log.map externals.digests.bytes).length = state.cursor := by
    rw [length_map, hwhole.cursor]
  have hfit : state.cursor < 2 ^ 64 := Nat.lt_of_le_of_lt hwhole.bound (by decide)
  obtain ⟨nodes, hall, hnodes⟩ := appendAll_take (le_refl _) (hlength ▸ hfit)
  have hstores := stores_storedNodes hnodes
  rw [take_length] at hall
  refine ⟨_, nodes, hall, hlength, ?_, ?_, ?_⟩
  · rw [accumulatorOf, LogLeaves.root, hwhole.accumulator, externals.digests.root_eq, take_length]
  · intro change hne
    rw [hwhole.verifyInclusion_iff]
    simp only [LogLeaves.verifyChange, bind_eq_ok, ensure_eq_ok, hwhole.accumulator]
    constructor
    · rintro ⟨_, hdigest, hfound⟩
      obtain ⟨hlt, -⟩ := List.getElem?_eq_some_iff.mp hfound
      exact ⟨hwhole.cursor ▸ hlt, ⟨hdigest, by omega⟩, hfound⟩
    · rintro ⟨-, ⟨hdigest, -⟩, hfound⟩
      exact ⟨(), hdigest, hfound⟩
  · intro size hsize root
    have hiff := hstores.exists_fromNodes_iff (m := size) (by omega) (by omega) (by omega) root
    refine ⟨?_, fun retained leaf hfrom hleaf => ?_⟩
    · rw [hiff, eq_comm (a := root), ← hex_injective.eq_iff, ← Externals.root_take]
      simp [LogLeaves.checkRetained, bind_eq_ok, LogLeaves.treeSize, hwhole.accumulator,
        ← hwhole.cursor, hsize]
    · obtain rfl := hiff.mp ⟨_, hfrom⟩
      rw [hstores.fromNodes (by omega) (by omega) (by omega)] at hfrom
      obtain rfl := Except.ok.inj hfrom
      obtain ⟨stored, hstored⟩ : ∃ stored, state.log[leaf]? = some stored :=
        ⟨_, getElem?_eq_getElem (by rw [← hwhole.cursor]; omega)⟩
      have hinput : (state.log.map externals.digests.bytes)[leaf]? =
          some (externals.digests.bytes stored) := by
        rw [getElem?_map, hstored]
        rfl
      obtain ⟨proof, hproof, hsize', hindex, hverify⟩ :=
        hstores.inclusionProof (by omega) (by omega) (by omega) hleaf hinput
      refine ⟨proof, hproof, fun change hdigest hcursor => ⟨fun hfound => ?_, ?_⟩⟩
      · have hchange := (hwhole.verifyInclusion_iff.mp hfound).2.2
        obtain rfl := Option.some.inj (hstored.symm.trans hchange)
        exact hverify
      · intro hpasses hfree hbytes
        have hleaf' := verify_sound (by rw [hsize', length_take]; omega) hpasses hfree
        rw [hindex, getElem?_take, if_pos hleaf, hinput] at hleaf'
        obtain rfl := hbytes stored (mem_of_getElem? hstored) (Option.some.inj hleaf')
        exact hwhole.verifyInclusion_iff.mpr ⟨hleaf, ⟨hdigest, hcursor⟩, hstored⟩

theorem leaves_are_merkle_tree_two : ∃ state accumulator nodes,
    run .numbered unreadableHead = .ok state ∧ state.cursor = 2 ∧
    RuntimeLogAccumulator.appendAll Externals.numbered.digests.sha256
      (state.log.map Externals.numbered.digests.bytes) = .ok (accumulator, nodes) ∧
    accumulator.treeSize = 2 := by
  have hrun : (run .numbered unreadableHead).toOption.any (fun state => state.cursor = 2) =
      true := by decide +kernel
  obtain ⟨state, hstate, hcursor⟩ := exists_ok_of_any hrun
  rw [decide_eq_true_eq] at hcursor
  obtain ⟨accumulator, nodes, hall, hsize, -⟩ := leaves_are_merkle_tree (reachable_of_run hstate)
  exact ⟨state, accumulator, nodes, hstate, hcursor, hall, hsize.trans hcursor⟩

end Rrflow.Store

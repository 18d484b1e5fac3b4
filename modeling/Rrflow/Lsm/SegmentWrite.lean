import Rrflow.Lsm.Segment

/-!
Writing segments.

`encodeVersions` cuts a stream of version chains into row groups. A chain is
never divided, so a group may exceed its budget. The physical layout of the
encoded file (compression, page alignment, the index and its size limits) is a
parameter, `SegmentCodec`: it may refuse a content, and gives the length of the
file and a fingerprint of the content. The only assumption about the fingerprint
is that it has no collisions.
-/

namespace Rrflow.Lsm

open Checks List

variable {versions : List (Bytes × List VersionedValue)}

variable (rows : List Entry)

/-- Decoded length of the pages of one row group: two offset pages, key data,
sequences, the validity bitmap and value data. -/
def groupLogicalBytes : Nat :=
  8 * (rows.length + 1) + (rows.map (fun row => row.1.length)).sum + 8 * rows.length
    + (rows.length + 7) / 8 + 8 * (rows.length + 1)
    + (rows.map (fun row => (row.2.value.elim 0 List.length))).sum

/-- Bytes of the columns of the group being built; saturating. -/
def estimatedBytes : Nat := min (groupLogicalBytes rows) u64Max

def chainBytes (key : Bytes) (versions : List VersionedValue) : Except Error Nat :=
  versions.foldlM (fun total version => do
    let value := version.value.getD []
    validateKeyValue key value
    match ((checkedAdd total key.length).bind (checkedAdd · value.length)).bind
        (checkedAdd · 24) with
    | some total => .ok total
    | none => .error (.invalidSegment "v6 row-group estimate overflow")) 0

/-- A finished row group; its row count is a `u32`. -/
def finishGroup : Except Error (List Entry) :=
  if rows.length > 2 ^ 32 - 1 then
    .error (.invalidSegment "v6 row-group count exceeds u32")
  else .ok rows

/-- The loop of the encoder; `current` is the group being built. -/
def encodeGroups (budget : SegmentRowGroupBudget) :
    List Entry → List (Bytes × List VersionedValue) → Except Error (List (List Entry))
  | current, [] => do
      if current = [] then return []
      return [← finishGroup current]
  | current, (key, versions) :: rest => do
      let keyBytes ← chainBytes key versions
      let chain := versions.map (fun version => (key, version))
      if current ≠ [] ∧ (saturatingAdd current.length versions.length > budget.maxRows
          ∨ saturatingAdd (estimatedBytes current) keyBytes > budget.targetBytes) then
        let group ← finishGroup current
        return group :: (← encodeGroups budget chain rest)
      else
        encodeGroups budget (current ++ chain) rest

/-- The physical encoding of contents: whether the size limits of the format
admit it, the length of the file and its SHA-256 fingerprint. -/
structure SegmentCodec where
  admits : List (List Entry) → Except Error Unit
  bytes : List (List Entry) → Nat
  sha256 : List (List Entry) → Digest
  sha256_injective : Function.Injective sha256

def encodeVersions (codec : SegmentCodec) (budget : SegmentRowGroupBudget)
    (versions : List (Bytes × List VersionedValue)) : Except Error (List (List Entry)) := do
  budget.validate
  if (versions.map (fun chain => chain.2.length)).sum = 0 then
    .error (.invalidSegment "cannot write an empty segment")
  let groups ← encodeGroups budget [] versions
  codec.admits groups
  return groups

/-! ### What the encoder writes -/

def chainRows (versions : List (Bytes × List VersionedValue)) : List Entry :=
  versions.flatMap fun chain => chain.2.map (fun version => (chain.1, version))

@[simp] theorem chainRows_cons (key : Bytes) (versions : List VersionedValue)
    (rest : List (Bytes × List VersionedValue)) :
    chainRows ((key, versions) :: rest) =
      versions.map (fun version => (key, version)) ++ chainRows rest := rfl

theorem mem_chainRows {row : Entry} :
    row ∈ chainRows versions ↔ ∃ chain ∈ versions, chain.1 = row.1 ∧ row.2 ∈ chain.2 := by
  simp only [chainRows, mem_flatMap, mem_map]
  constructor
  · rintro ⟨chain, hmem, version, hv, rfl⟩
    exact ⟨chain, hmem, rfl, hv⟩
  · rintro ⟨chain, hmem, hkey, hv⟩
    exact ⟨chain, hmem, row.2, hv, by rw [hkey]⟩

theorem finishGroup_ok {rows group : List Entry} (h : finishGroup rows = .ok group) :
    group = rows := by
  unfold finishGroup at h
  split at h
  · simp at h
  · exact (Except.ok.inj h).symm

/-- The groups have the rows in order. -/
theorem flatten_encodeGroups {budget : SegmentRowGroupBudget} {current : List Entry}
    {groups : List (List Entry)} (h : encodeGroups budget current versions = .ok groups) :
    groups.flatten = current ++ chainRows versions := by
  induction versions generalizing current groups with
  | nil =>
    unfold encodeGroups at h
    split at h
    · next hcur =>
        cases h
        simp [chainRows, hcur]
    · obtain ⟨group, hfinish, h⟩ := bind_eq_ok.mp h
      cases h
      rw [finishGroup_ok hfinish]
      simp [chainRows]
  | cons chain rest ih =>
    obtain ⟨keyBytes, -, h⟩ := bind_eq_ok.mp h
    split at h
    · obtain ⟨group, hfinish, h⟩ := bind_eq_ok.mp h
      obtain ⟨groups, hrest, h⟩ := bind_eq_ok.mp h
      cases h
      rw [finishGroup_ok hfinish, flatten_cons, ih hrest, chainRows_cons]
    · rw [ih h, chainRows_cons, append_assoc]

theorem flatten_encodeVersions {codec : SegmentCodec} {budget : SegmentRowGroupBudget}
    {groups : List (List Entry)} (h : encodeVersions codec budget versions = .ok groups) :
    groups.flatten = chainRows versions := by
  simp only [encodeVersions, bind_eq_ok, unless_eq_ok] at h
  obtain ⟨_, -, -, result, hgroups, _, -, h⟩ := h
  cases h
  rw [flatten_encodeGroups hgroups, nil_append]

end Rrflow.Lsm

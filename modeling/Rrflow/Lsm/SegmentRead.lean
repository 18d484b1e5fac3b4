import Rrflow.Lsm.Segment

/-!
The point read of one segment.

It finds the only row group that can hold the key by its last keys, asks the group's
filter, bisects for the key's first row and walks the key's rows. The answer is the
newest version of the key's chain at the read sequence.
-/

namespace Rrflow.Lsm

open Latest Search List VersionedValue

/-! ### The point read -/

/-- Position of the first row whose key is at least `key`. -/
def lowerBound (rows : List Entry) (key : Bytes) : Nat :=
  bisect (fun middle => decide ((rows[middle]?.elim [] Prod.fst) < key)) rows.length 0 rows.length

/-- The walk over the rows of one key: the last row visible at `readSequence`,
with its position. -/
def selectRow (key : Bytes) (readSequence : Nat) :
    Nat → List Entry → Option (Nat × Nat) → Option (Nat × Nat)
  | _, [], selected => selected
  | row, entry :: rest, selected =>
    if entry.1 ≠ key then selected
    else if entry.2.sequence ≤ readSequence then
      selectRow key readSequence (row + 1) rest (some (row, entry.2.sequence))
    else selectRow key readSequence (row + 1) rest selected

/-- A selected row: its place in the segment and its sequence. -/
structure SelectedVersion where
  rowGroup : Nat
  row : Nat
  sequence : Nat
  deriving DecidableEq, Repr

namespace SegmentContent

variable (content : SegmentContent)

def selectVersion (key : Bytes) (readSequence : Nat) : Option SelectedVersion :=
  if key < content.firstKey ∨ content.lastKey < key
      ∨ readSequence < content.minimumSequence then none
  else
    let index := partitionPoint (fun group => decide (groupLastKey group < key)) content.rowGroups
    match content.rowGroups[index]? with
    | none => none
    | some group =>
      if key < groupFirstKey group then none
      else if !(filterOf group).mayContain key then none
      else
        let row := lowerBound group key
        (selectRow key readSequence row (group.drop row) none).map
          fun selected => ⟨index, selected.1, selected.2⟩

def valueAt (rowGroup row : Nat) : Option Bytes := do
  (← (← content.rowGroups[rowGroup]?)[row]?).2.value

def getVersion (key : Bytes) (readSequence : Nat) : Option VersionedValue := do
  let selected ← content.selectVersion key readSequence
  return ⟨selected.sequence, content.valueAt selected.rowGroup selected.row⟩

def getSequence (key : Bytes) (readSequence : Nat) : Option Nat :=
  (content.selectVersion key readSequence).map SelectedVersion.sequence

end SegmentContent

theorem rows_partitioned {rows : List Entry} (h : rows.Pairwise RowLt) (key : Bytes) :
    rows.Pairwise (fun x y => decide (y.1 < key) = true → decide (x.1 < key) = true) := by
  refine h.imp ?_
  intro x y hxy hy
  simp only [decide_eq_true_eq] at hy ⊢
  exact hxy.key_le.trans_lt hy

theorem lowerBound_eq {rows : List Entry} (h : rows.Pairwise RowLt) (key : Bytes) :
    lowerBound rows key = partitionPoint (fun row => decide (row.1 < key)) rows := by
  refine bisect_eq ?_ (Nat.zero_le _) (partitionPoint_le_length _ _) (by omega)
  intro i _ hi
  rw [getElem?_eq_getElem hi, Option.elim_some,
    lt_partitionPoint_iff (rows_partitioned h key) (getElem?_eq_getElem hi)]

theorem chainOf_eq_nil {key : Bytes} {rows : List Entry} (h : ∀ row ∈ rows, row.1 ≠ key) :
    chainOf key rows = [] := by
  rw [chainOf, filterMap_eq_nil_iff]
  intro row hrow
  simp [h row hrow]

theorem selectRow_spec {key : Bytes} (readSequence : Nat) {rows : List Entry}
    (hrows : rows.Pairwise RowLt) (hge : ∀ row ∈ rows, key ≤ row.1) (row : Nat)
    (selected : Option (Nat × Nat)) :
    ∃ o, IsLatest sequence readSequence (chainOf key rows) o ∧
      match o with
      | none => selectRow key readSequence row rows selected = selected
      | some v => ∃ i, rows[i]? = some (key, v) ∧
          selectRow key readSequence row rows selected = some (row + i, v.sequence) := by
  induction rows generalizing row selected with
  | nil => exact ⟨none, isLatest_nil _ _, rfl⟩
  | cons entry rest ih =>
    rw [pairwise_cons] at hrows
    by_cases hkey : entry.1 = key
    · obtain ⟨k, v⟩ := entry
      have hk : key = k := hkey.symm
      subst hk
      have hrest := ih hrows.2 fun r hr => hge r (mem_cons_of_mem _ hr)
      have hlater : ∀ w ∈ chainOf key rest, v.sequence < w.sequence := by
        intro w hw
        rcases hrows.1 _ (mem_chainOf.mp hw) with hlt | ⟨-, hlt⟩
        · exact absurd hlt (lt_irrefl _)
        · exact hlt
      by_cases hv : v.sequence ≤ readSequence
      · obtain ⟨o, hlatest, ho⟩ := hrest (row + 1) (some (row, v.sequence))
        have happ := (isLatest_singleton sequence readSequence v).append hlatest
        rw [if_pos hv] at happ
        have hstep : selectRow key readSequence row ((key, v) :: rest) selected =
            selectRow key readSequence (row + 1) rest (some (row, v.sequence)) := by
          simp [selectRow, hv]
        refine ⟨_, by rw [chainOf_cons, if_pos rfl]; exact happ, ?_⟩
        cases o with
        | none =>
          refine ⟨0, rfl, ?_⟩
          rw [hstep, ho, Nat.add_zero]
        | some w =>
          obtain ⟨i, hi, hsel⟩ := ho
          simp only [newer, if_pos (hlater w hlatest.1)]
          refine ⟨i + 1, by simpa using hi, ?_⟩
          rw [hstep, hsel, Nat.add_assoc, Nat.add_comm 1 i]
      · obtain ⟨o, hlatest, ho⟩ := hrest (row + 1) selected
        have hnone : IsLatest sequence readSequence (chainOf key rest) none := by
          intro w hw
          have := hlater w hw
          omega
        have hsel : selectRow key readSequence (row + 1) rest selected = selected := by
          cases o with
          | none => exact ho
          | some w => exact absurd (hnone w hlatest.1) (by have := hlatest.2.1; omega)
        refine ⟨none, ?_, ?_⟩
        · rw [chainOf_cons, if_pos rfl]
          intro w hw
          rcases mem_cons.mp hw with rfl | hw
          · omega
          · exact hnone w hw
        · simp [selectRow, hv, hsel]
    · refine ⟨none, ?_, by simp [selectRow, hkey]⟩
      have hlt : key < entry.1 :=
        lt_of_le_of_ne (hge entry (mem_cons_self ..)) (Ne.symm hkey)
      rw [chainOf_eq_nil]
      · exact isLatest_nil _ _
      · intro r hr
        rcases mem_cons.mp hr with rfl | hr
        · exact hkey
        · exact (hlt.trans_le (hrows.1 r hr).key_le).ne'

namespace SegmentContent

variable (content : SegmentContent)

variable (key : Bytes)

theorem groups_partitioned : content.rowGroups.Pairwise (fun x y =>
      decide (groupLastKey y < key) = true → decide (groupLastKey x < key) = true) := by
  refine content.wellFormed.lastKeys_increasing.imp ?_
  intro x y hxy hy
  simp only [decide_eq_true_eq] at hy ⊢
  exact hxy.trans hy

/-- Every row of a key lies in the first group whose last key is not before the
key. -/
theorem chain_eq_group : content.chain key =
      chainOf key ((content.rowGroups[partitionPoint
        (fun group => decide (groupLastKey group < key)) content.rowGroups]?).getD []) := by
  set p : List Entry → Bool := fun group => decide (groupLastKey group < key) with hp
  have hwf := content.wellFormed
  have hbefore : chainOf key (content.rowGroups.takeWhile p).flatten = [] := by
    refine chainOf_eq_nil ?_
    intro row hrow
    obtain ⟨group, hg, hrow⟩ := mem_flatten.mp hrow
    have hmem : group ∈ content.rowGroups := (takeWhile_sublist p).subset hg
    have hlt : groupLastKey group < key := by simpa [hp] using mem_takeWhile_imp hg
    exact ((le_groupLastKey (hwf.group_ordered hmem) hrow).trans_lt hlt).ne
  have hsplit : content.chain key = chainOf key (content.rowGroups.dropWhile p).flatten := by
    rw [chain, rows, ← takeWhile_append_dropWhile (p := p) (l := content.rowGroups),
      flatten_append, chainOf_append, hbefore, nil_append,
      takeWhile_append_dropWhile]
  rw [hsplit, ← head?_drop, drop_partitionPoint]
  cases hdrop : content.rowGroups.dropWhile p with
  | nil => rfl
  | cons group rest =>
    have hafter : chainOf key rest.flatten = [] := by
      refine chainOf_eq_nil ?_
      intro row hrow
      obtain ⟨g, hg, hrow⟩ := mem_flatten.mp hrow
      have hsub : (group :: rest).Sublist content.rowGroups :=
        hdrop ▸ dropWhile_sublist p
      have hsep := hwf.separated.sublist hsub
      have hgroup : ¬groupLastKey group < key := by
        have := not_of_mem_dropWhile (content.groups_partitioned key)
          (a := group) (by rw [← hp, hdrop]; simp)
        simpa using this
      have hg' : g ∈ content.rowGroups := hsub.subset (mem_cons_of_mem _ hg)
      have hlt : groupLastKey group < row.1 :=
        ((pairwise_cons.mp hsep).1 g hg).trans_le (groupFirstKey_le (hwf.group_ordered hg') hrow)
      exact ((not_lt.mp hgroup).trans_lt hlt).ne'
    simp [hafter]

/-- The point read returns the newest version of the key's chain, and nothing
when there is none. -/
theorem isLatest_getVersion (readSequence : Nat) :
    IsLatest sequence readSequence (content.chain key) (content.getVersion key readSequence) := by
  unfold getVersion selectVersion
  split
  · rename_i hout
    -- outside the key bounds there is no row, below the least sequence none is visible
    intro v hv
    have hrow := mem_chainOf.mp hv
    rcases hout with hlt | hlt | hlt
    · exact absurd (content.firstKey_le hrow) (not_le.mpr hlt)
    · exact absurd (content.le_lastKey hrow) (not_le.mpr hlt)
    · exact hlt.trans_le (content.minimumSequence_le hrow)
  · rw [chain_eq_group]
    simp only
    split
    · rename_i hgroup
      rw [hgroup]
      exact isLatest_nil _ _
    · rename_i group hgroup
      rw [hgroup, Option.getD_some]
      have hmem : group ∈ content.rowGroups := mem_of_getElem? hgroup
      have hord := content.wellFormed.group_ordered hmem
      split
      · rename_i hlt
        rw [chainOf_eq_nil fun row hrow => (hlt.trans_le (groupFirstKey_le hord hrow)).ne']
        exact isLatest_nil _ _
      · split
        · rename_i hneg
          rw [chainOf_eq_nil]
          · exact isLatest_nil _ _
          · rintro row hrow rfl
            simp [mayContain_filterOf hrow] at hneg
        · rw [lowerBound_eq hord, drop_partitionPoint]
          set p : Entry → Bool := fun row => decide (row.1 < key) with hp
          have hchain : chainOf key group = chainOf key (group.dropWhile p) := by
            conv_lhs => rw [← takeWhile_append_dropWhile (p := p) (l := group)]
            rw [chainOf_append, chainOf_eq_nil, nil_append]
            intro row hrow
            have : row.1 < key := by simpa [hp] using mem_takeWhile_imp hrow
            exact this.ne
          have hge : ∀ row ∈ group.dropWhile p, key ≤ row.1 := by
            intro row hrow
            have := not_of_mem_dropWhile (rows_partitioned hord key) (a := row) hrow
            simpa using this
          obtain ⟨o, hlatest, ho⟩ := selectRow_spec readSequence
            (hord.sublist (dropWhile_sublist p)) hge (partitionPoint p group) none
          rw [hchain]
          cases o with
          | none =>
            simp only at ho
            rw [ho]
            exact hlatest
          | some v =>
            obtain ⟨i, hi, hsel⟩ := ho
            rw [hsel]
            have hrow : group[partitionPoint p group + i]? = some (key, v) := by
              rw [← getElem?_drop, drop_partitionPoint]
              exact hi
            simpa [valueAt, hgroup, hrow] using hlatest

theorem getSequence_eq (readSequence : Nat) : content.getSequence key readSequence =
      (content.getVersion key readSequence).map sequence := by
  unfold getSequence getVersion
  cases content.selectVersion key readSequence <;> rfl

end SegmentContent

end Rrflow.Lsm

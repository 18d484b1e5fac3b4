import Rrflow.Kernel.SnapshotSpec
import Rrflow.Lib.Latest

/-!
The records and relations of a read.

A traversal gets its versions in several steps: a version may come twice, and an
older one after a newer one. Of every identity the version of the greatest cursor
is kept, retirements and expired versions included, so that what arrives late
revives nothing. What is kept depends on which versions came, not on their order.
-/

namespace Rrflow.Query

open Kernel List

/-- The version of every identity with its cursor; without a value it is retired or
expired. -/
abbrev Versions (α : Type) := SortedMap RuntimeRef (Nat × Option α)

/-- A version takes the place of older ones. -/
def replace {α : Type} (versions : Versions α) (reference : RuntimeRef) (cursor : Nat)
    (value : Option α) : Versions α :=
  match versions.find? reference with
  | none => versions.insert reference (cursor, value)
  | some (current, _) =>
    if current < cursor then versions.insert reference (cursor, value) else versions

structure GraphState where
  scope : ScopeId
  validAt : Nat
  knownAtCursor : Nat
  records : Versions RuntimeRecord
  relations : Versions RuntimeRelation

variable (state : GraphState) (change : RuntimeChange)

namespace GraphState

def new (scope : ScopeId) (validAt knownAtCursor : Nat) : GraphState :=
  { scope, validAt, knownAtCursor, records := .empty, relations := .empty }

def apply : GraphState :=
  if state.knownAtCursor < change.cursor ∨ change.scope ≠ state.scope then state
  else
    match change.mutation with
    | .record record =>
      if record.validFrom ≤ state.validAt then
        let value := if record.validTo.all (state.validAt < ·) then some record else none
        { state with records := replace state.records record.reference change.cursor value }
      else state
    | .relation relation =>
      if relation.validFrom ≤ state.validAt then
        let value := if relation.validTo.all (state.validAt < ·) then some relation else none
        { state with relations := replace state.relations relation.reference change.cursor value }
      else state
    | .retire retirement =>
      if retirement.effectiveAt ≤ state.validAt then
        if retirement.model.isRecordLike then
          { state with records := replace state.records retirement.reference change.cursor none }
        else if retirement.model = .graphRelation then
          { state with
            relations := replace state.relations retirement.reference change.cursor none }
        else state
      else state
    | _ => state

def intoValues : SortedMap RuntimeRef RuntimeRecord × SortedMap RuntimeRef RuntimeRelation :=
  (state.records.filterMap Prod.snd, state.relations.filterMap Prod.snd)

end GraphState

/-- The records and relations of some changes at an instant and a cursor. -/
def activeGraphValues (changes : List RuntimeChange) (scope : ScopeId)
    (validAt knownAtCursor : Nat) :
    SortedMap RuntimeRef RuntimeRecord × SortedMap RuntimeRef RuntimeRelation :=
  (changes.foldl GraphState.apply (.new scope validAt knownAtCursor)).intoValues

/-! ### What is kept of an identity -/

theorem find?_replace {α : Type} (versions : Versions α) (reference other : RuntimeRef)
    (cursor : Nat) (value : Option α) :
    (replace versions reference cursor value).find? other =
      if reference = other then
        Latest.newer Prod.fst (versions.find? other) (some (cursor, value))
      else versions.find? other := by
  unfold replace
  by_cases heq : reference = other
  · subst heq
    rw [if_pos rfl]
    cases hfind : versions.find? reference with
    | none => simp [Latest.newer]
    | some current =>
      by_cases hlt : current.1 < cursor
      · simp [Latest.newer, hlt]
      · simp [Latest.newer, hlt, hfind]
  · have hother := versions.find?_insert_of_ne (cursor, value) (Ne.symm heq)
    rw [if_neg heq]
    split
    · exact hother
    · split
      · exact hother
      · rfl

/-- The versions of an identity that some changes give, by their cursors. -/
def versionsIn (changes : List RuntimeChange) (scope : ScopeId) (knownAtCursor : Nat)
    (family : RuntimeMutationFamily) (reference : RuntimeRef) (validAt : Nat) :
    List RuntimeChange :=
  (visibleChanges changes scope knownAtCursor).filter (·.concerns family reference validAt)

theorem mem_versionsIn {changes : List RuntimeChange} {scope : ScopeId} {knownAtCursor : Nat}
    {family : RuntimeMutationFamily} {reference : RuntimeRef} {validAt : Nat}
    {change : RuntimeChange} :
    change ∈ versionsIn changes scope knownAtCursor family reference validAt ↔
      change ∈ changes ∧ (change.cursor ≤ knownAtCursor ∧ change.scope = scope) ∧
        change.target = some (family, reference) ∧ change.effectiveAt ≤ validAt := by
  simp only [versionsIn, visibleChanges, RuntimeChange.concerns, mem_filter,
    Bool.and_eq_true, decide_eq_true_eq, and_assoc]

/-- The version of an identity that counts among some changes. -/
def winner (changes : List RuntimeChange) (scope : ScopeId) (knownAtCursor : Nat)
    (family : RuntimeMutationFamily) (reference : RuntimeRef) (validAt : Nat) :
    Option RuntimeChange :=
  Latest.latest (·.cursor) knownAtCursor
    (versionsIn changes scope knownAtCursor family reference validAt)

theorem winner_concat (changes : List RuntimeChange) (last : RuntimeChange) (scope : ScopeId)
    (knownAtCursor : Nat) (family : RuntimeMutationFamily) (reference : RuntimeRef)
    (validAt : Nat) :
    winner (changes ++ [last]) scope knownAtCursor family reference validAt =
      if (last.cursor ≤ knownAtCursor ∧ last.scope = scope) ∧
          last.concerns family reference validAt then
        Latest.newer (·.cursor) (winner changes scope knownAtCursor family reference validAt)
          (some last)
      else winner changes scope knownAtCursor family reference validAt := by
  unfold winner versionsIn visibleChanges
  rw [filter_append, filter_append, filter_filter, filter_filter]
  by_cases hseen : (last.cursor ≤ knownAtCursor ∧ last.scope = scope) ∧
      last.concerns family reference validAt = true
  · rw [if_pos hseen, filter_cons_of_pos (by simp [hseen]), filter_nil,
      Latest.latest_concat, if_pos hseen.1.1]
  · rw [if_neg hseen, filter_cons_of_neg (by simpa [and_comm] using hseen), filter_nil, append_nil]

namespace GraphState

/-- What a change leaves of a record at an instant. -/
def recordAt (validAt : Nat) (change : RuntimeChange) : Option RuntimeRecord :=
  change.mutation.record?.filter fun value => validAtWindow value.validFrom value.validTo validAt

/-- What a change leaves of a relation at an instant. -/
def relationAt (validAt : Nat) (change : RuntimeChange) : Option RuntimeRelation :=
  change.mutation.relation?.filter fun value => validAtWindow value.validFrom value.validTo validAt

/-- What one more change does to the version of an identity. -/
def kept {α : Type} (state : GraphState) (family : RuntimeMutationFamily)
    (left : Nat → RuntimeChange → Option α) (reference : RuntimeRef) (change : RuntimeChange)
    (version : Option (Nat × Option α)) : Option (Nat × Option α) :=
  if (change.cursor ≤ state.knownAtCursor ∧ change.scope = state.scope) ∧
      change.concerns family reference state.validAt then
    Latest.newer Prod.fst version (some (change.cursor, left state.validAt change))
  else version

theorem same_apply :
    (state.apply change).scope = state.scope ∧ (state.apply change).validAt = state.validAt ∧
      (state.apply change).knownAtCursor = state.knownAtCursor := by
  unfold apply
  split
  · exact ⟨rfl, rfl, rfl⟩
  · cases change.mutation with
    | record value | relation value =>
      dsimp only
      split <;> exact ⟨rfl, rfl, rfl⟩
    | retire retirement =>
      dsimp only
      split_ifs <;> exact ⟨rfl, rfl, rfl⟩
    | _ => exact ⟨rfl, rfl, rfl⟩

theorem isRecordLike_iff {model : RuntimeLogicalModel} :
    model.isRecordLike = true ↔ model.family = .record := by
  cases model <;> simp [RuntimeLogicalModel.isRecordLike, RuntimeLogicalModel.family]

theorem eq_graphRelation_iff {model : RuntimeLogicalModel} :
    model = .graphRelation ↔ model.family = .relation := by
  cases model <;> simp [RuntimeLogicalModel.family]

theorem find?_apply (reference : RuntimeRef) : (state.apply change).records.find? reference =
        state.kept .record recordAt reference change (state.records.find? reference) ∧
      (state.apply change).relations.find? reference =
        state.kept .relation relationAt reference change (state.relations.find? reference) := by
  unfold apply kept
  by_cases hvisible : change.cursor ≤ state.knownAtCursor ∧ change.scope = state.scope
  · rw [if_neg (by simpa using hvisible)]
    simp only [hvisible, and_self, true_and]
    have hconcerns (family : RuntimeMutationFamily) :
        change.concerns family reference state.validAt = true ↔
          change.target = some (family, reference) ∧ change.effectiveAt ≤ state.validAt := by
      simp [RuntimeChange.concerns]
    simp only [hconcerns]
    cases hmutation : change.mutation with
    | record value =>
      simp only [RuntimeChange.target, RuntimeChange.effectiveAt, recordAt, hmutation]
      by_cases hfrom : value.validFrom ≤ state.validAt
      · simp [hfrom, find?_replace, validAtWindow, RuntimeMutation.record?, Option.filter_some]
      · simp [hfrom]
    | relation value =>
      simp only [RuntimeChange.target, RuntimeChange.effectiveAt, relationAt, hmutation]
      by_cases hfrom : value.validFrom ≤ state.validAt
      · simp [hfrom, find?_replace, validAtWindow, RuntimeMutation.relation?, Option.filter_some]
      · simp [hfrom]
    | retire retirement =>
      simp only [RuntimeChange.target, RuntimeChange.effectiveAt, recordAt, relationAt, hmutation,
        isRecordLike_iff, eq_graphRelation_iff]
      by_cases hat : retirement.effectiveAt ≤ state.validAt
      · cases retirement.model.family <;>
          simp [hat, find?_replace, RuntimeMutation.record?, RuntimeMutation.relation?]
      · simp [hat]
    | _ => simp [RuntimeChange.target, hmutation]
  · rw [if_pos (by rwa [not_and_or, not_le] at hvisible), if_neg (by simp [hvisible]),
      if_neg (by simp [hvisible])]
    exact ⟨rfl, rfl⟩

variable {scope : ScopeId} {validAt knownAtCursor : Nat}

theorem same_foldl_apply (changes : List RuntimeChange) (state : GraphState) :
    (changes.foldl apply state).scope = state.scope ∧
      (changes.foldl apply state).validAt = state.validAt ∧
      (changes.foldl apply state).knownAtCursor = state.knownAtCursor := by
  induction changes generalizing state with
  | nil => exact ⟨rfl, rfl, rfl⟩
  | cons change rest ih =>
    obtain ⟨hscope, hat, hknown⟩ := state.same_apply change
    rw [foldl_cons, ← hscope, ← hat, ← hknown]
    exact ih _

theorem find?_foldl_apply {α : Type} {family : RuntimeMutationFamily}
    {left : Nat → RuntimeChange → Option α} {versions : GraphState → Versions α}
    (hnew : (versions (.new scope validAt knownAtCursor)) = .empty)
    (happly : ∀ (state : GraphState) change reference,
      (versions (state.apply change)).find? reference =
        state.kept family left reference change ((versions state).find? reference))
    (changes : List RuntimeChange) (reference : RuntimeRef) :
    (versions (changes.foldl apply (.new scope validAt knownAtCursor))).find? reference =
      (winner changes scope knownAtCursor family reference validAt).map
        fun change => (change.cursor, left validAt change) := by
  induction changes using List.reverseRecOn with
  | nil => rw [foldl_nil, hnew]; rfl
  | append_singleton changes last ih =>
    obtain ⟨hscope, hat, hknown⟩ : (changes.foldl apply (.new scope validAt knownAtCursor)).scope =
        scope ∧ (changes.foldl apply (.new scope validAt knownAtCursor)).validAt = validAt ∧
        (changes.foldl apply (.new scope validAt knownAtCursor)).knownAtCursor = knownAtCursor :=
      same_foldl_apply changes (.new scope validAt knownAtCursor)
    rw [foldl_append, foldl_cons, foldl_nil, happly, ih, kept, hscope, hat, hknown, winner_concat]
    by_cases hseen : (last.cursor ≤ knownAtCursor ∧ last.scope = scope) ∧
        last.concerns family reference validAt = true
    · rw [if_pos hseen, if_pos hseen]
      cases winner changes scope knownAtCursor family reference validAt with
      | none => rfl
      | some best => grind [Latest.newer]
    · rw [if_neg hseen, if_neg hseen]

theorem find?_records (changes : List RuntimeChange) (reference : RuntimeRef) :
    (changes.foldl apply (.new scope validAt knownAtCursor)).records.find? reference =
      (winner changes scope knownAtCursor .record reference validAt).map
        fun change => (change.cursor, recordAt validAt change) :=
  find?_foldl_apply rfl (fun state change r => (find?_apply state change r).1) changes reference

theorem find?_relations (changes : List RuntimeChange) (reference : RuntimeRef) :
    (changes.foldl apply (.new scope validAt knownAtCursor)).relations.find? reference =
      (winner changes scope knownAtCursor .relation reference validAt).map
        fun change => (change.cursor, relationAt validAt change) :=
  find?_foldl_apply rfl (fun state change r => (find?_apply state change r).2) changes reference

end GraphState

variable {changes : List RuntimeChange} {scope : ScopeId} {validAt knownAtCursor : Nat}

theorem find?_activeRecords (reference : RuntimeRef) :
    (activeGraphValues changes scope validAt knownAtCursor).1.find? reference =
      (winner changes scope knownAtCursor .record reference validAt).bind
        (GraphState.recordAt validAt) := by
  rw [activeGraphValues, GraphState.intoValues, SortedMap.find?_filterMap, GraphState.find?_records]
  cases winner changes scope knownAtCursor .record reference validAt <;> rfl

theorem find?_activeRelations (reference : RuntimeRef) :
    (activeGraphValues changes scope validAt knownAtCursor).2.find? reference =
      (winner changes scope knownAtCursor .relation reference validAt).bind
        (GraphState.relationAt validAt) := by
  rw [activeGraphValues, GraphState.intoValues, SortedMap.find?_filterMap,
    GraphState.find?_relations]
  cases winner changes scope knownAtCursor .relation reference validAt <;> rfl

end Rrflow.Query

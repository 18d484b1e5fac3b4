import Rrflow.Store.Invariant

/-!
Version entries.

The version entry of a change is written when the change is placed, so it is a
function of the log before it: `entered` says where the entry lies, or that there is
none.
-/

namespace Rrflow.Store

open Kernel Checks List LogSpaces

variable {change : RuntimeChange} {spaces : LogSpaces} {place : VersionPlace} {digests : Digests}
  {log : List RuntimeChange}

def LogSpaces.versionAt (spaces : LogSpaces) : VersionPlace → Option RuntimeChange
  | .schema key => spaces.schemaVersions.find? key
  | .claim key => spaces.claimVersions.find? key
  | .version space key => (spaces.versions space).find? key
  | .edge direction key => (spaces.edgeVersions direction).find? key

def familyPlace (change : RuntimeChange) (space : VersionSpace) (reference : RuntimeRef)
    (effectiveAt : Nat) : VersionPlace :=
  .version space (versionKey change.scope reference effectiveAt change.cursor)

/-- Where a change is entered when it is placed. A retirement of a relation without a
current row is not entered anywhere. -/
def LogSpaces.entryOf (spaces : LogSpaces) (change : RuntimeChange) : Option VersionPlace :=
  match change.mutation with
  | .schema _ => some (.schema (schemaVersionKey change.scope change.cursor))
  | .claim claim => some (.claim (claimVersionKey change.scope claim change.cursor))
  | .record value => some (familyPlace change .record value.reference value.validFrom)
  | .relation value => some (familyPlace change .relation value.reference value.validFrom)
  | .event event => some (familyPlace change .event (.event event.kind change.cursor) change.at_)
  | .vector value => some (familyPlace change .vector value.reference value.validFrom)
  | .seriesSample sample => some (familyPlace change .series sample.reference sample.observedAt)
  | .geo value => some (familyPlace change .geo value.reference value.validFrom)
  | .object value => some (familyPlace change .object value.reference change.at_)
  | .retire retirement =>
    if retirement.model.family = .relation ∧
        spaces.relation? change.scope retirement.reference = none then none
    else (VersionSpace.ofFamily retirement.model.family).map fun space =>
      familyPlace change space retirement.reference retirement.effectiveAt

/-- The place of the entry of a change in the log, which is at its cursor. -/
def entered (log : List RuntimeChange) (change : RuntimeChange) : Option VersionPlace :=
  (replay (log.take (change.cursor - 1))).entryOf change

def VersionPlace.isEdge : VersionPlace → Bool
  | .edge .. => true
  | _ => false

/-- Every version key ends in the cursor of its change. -/
def VersionPlace.cursor : VersionPlace → Nat
  | .schema key => OrderDual.ofDual (ofLex key).2
  | .claim key =>
    OrderDual.ofDual (ofLex (ofLex (ofLex (ofLex (ofLex key).2).2).2).2).2
  | .version _ key => OrderDual.ofDual (ofLex (ofLex (ofLex key).2).2).2
  | .edge _ key => OrderDual.ofDual (ofLex (ofLex key).2).2

theorem LogSpaces.cursor_of_entryOf (h : spaces.entryOf change = some place) :
    place.cursor = change.cursor ∧ place.isEdge = false := by
  unfold entryOf familyPlace at h
  cases hmutation : change.mutation with
  | retire retirement =>
    simp only [hmutation] at h
    split at h
    · cases h
    · obtain ⟨space, -, rfl⟩ := Option.map_eq_some_iff.mp h
      exact ⟨rfl, rfl⟩
  | _ =>
    simp only [hmutation, Option.some.injEq] at h
    subst h
    exact ⟨rfl, rfl⟩

theorem LogSpaces.entryOf_eq_schema {key : SchemaVersionKey}
    (h : spaces.entryOf change = some (.schema key)) :
    (∃ registry, change.mutation = .schema registry) ∧
      key = schemaVersionKey change.scope change.cursor := by
  unfold entryOf familyPlace at h
  cases hmutation : change.mutation with
  | schema registry =>
    simp only [hmutation, Option.some.injEq, VersionPlace.schema.injEq] at h
    exact ⟨⟨registry, rfl⟩, h.symm⟩
  | retire retirement =>
    simp only [hmutation] at h
    split at h
    · cases h
    · simp at h
  | _ => simp [hmutation] at h

theorem LogSpaces.entryOf_eq_schema_iff {key : SchemaVersionKey} :
    spaces.entryOf change = some (.schema key) ↔
      change.mutation.schema?.isSome ∧ key = schemaVersionKey change.scope change.cursor := by
  constructor
  · intro h
    obtain ⟨⟨registry, hmutation⟩, hkey⟩ := entryOf_eq_schema h
    exact ⟨by simp [hmutation, RuntimeMutation.schema?], hkey⟩
  · rintro ⟨hsome, rfl⟩
    cases hmutation : change.mutation with
    | schema registry => simp [entryOf, hmutation]
    | _ => simp [hmutation, RuntimeMutation.schema?] at hsome

theorem LogSpaces.entryOf_eq_claim {key : ClaimVersionKey}
    (h : spaces.entryOf change = some (.claim key)) :
    ∃ claim, change.mutation = .claim claim ∧
      key = claimVersionKey change.scope claim change.cursor := by
  unfold entryOf familyPlace at h
  cases hmutation : change.mutation with
  | claim claim =>
    simp only [hmutation, Option.some.injEq, VersionPlace.claim.injEq] at h
    exact ⟨claim, rfl, h.symm⟩
  | retire retirement =>
    simp only [hmutation] at h
    split at h
    · cases h
    · simp at h
  | _ => simp [hmutation] at h

theorem LogSpaces.entryOf_eq_version {space : VersionSpace} {key : VersionKey}
    (h : spaces.entryOf change = some (.version space key)) :
    ∃ reference effectiveAt, versionAddress change = .ok ⟨space, reference, effectiveAt⟩ ∧
      key = versionKey change.scope reference effectiveAt change.cursor := by
  unfold entryOf familyPlace at h
  unfold versionAddress
  cases hmutation : change.mutation with
  | schema registry => simp [hmutation] at h
  | claim claim => simp [hmutation] at h
  | retire retirement =>
    simp only [hmutation] at h
    split at h
    · cases h
    · obtain ⟨space', hspace, heq⟩ := Option.map_eq_some_iff.mp h
      obtain ⟨rfl, rfl⟩ := VersionPlace.version.inj heq
      exact ⟨_, _, by simp [versionSpaceForModel, hspace, bind, Except.bind, pure, Except.pure],
        rfl⟩
  | _ =>
    simp only [hmutation, Option.some.injEq] at h
    obtain ⟨rfl, rfl⟩ := VersionPlace.version.inj h
    exact ⟨_, _, rfl, rfl⟩

/-- The version entry that a write makes, adjacency apart. -/
def LogWrite.versionEntry : LogWrite → Option (VersionPlace × RuntimeChange)
  | .schemaVersion key value => some (.schema key, value)
  | .claimVersion key value => some (.claim key, value)
  | .version space key value => some (.version space key, value)
  | _ => none

theorem LogSpaces.versionAt_apply (spaces : LogSpaces) (write : LogWrite)
    (hedge : place.isEdge = false) :
    (spaces.apply write).versionAt place =
      write.versionEntry.toList.foldl
        (fun found entry => if place = entry.1 then some entry.2 else found)
        (spaces.versionAt place) := by
  cases place with
  | edge => cases hedge
  | version space key =>
    cases write with
    | version space' key' value =>
      by_cases hspace : space = space'
      · subst hspace
        simp [apply, versionAt, LogWrite.versionEntry, SortedMap.find?_insert]
      · simp [apply, versionAt, LogWrite.versionEntry, hspace]
    | _ => rfl
  | schema key =>
    cases write with
    | schemaVersion key' value =>
      simp [apply, versionAt, LogWrite.versionEntry, SortedMap.find?_insert]
    | _ => rfl
  | claim key =>
    cases write with
    | claimVersion key' value =>
      simp [apply, versionAt, LogWrite.versionEntry, SortedMap.find?_insert]
    | _ => rfl

theorem LogSpaces.versionAt_applyAll (spaces : LogSpaces) (writes : List LogWrite)
    (hedge : place.isEdge = false) :
    (spaces.applyAll writes).versionAt place =
      (writes.flatMap fun write => write.versionEntry.toList).foldl
        (fun found entry => if place = entry.1 then some entry.2 else found)
        (spaces.versionAt place) := by
  induction writes generalizing spaces with
  | nil => rfl
  | cons write rest ih =>
    rw [applyAll_cons, ih, versionAt_apply spaces write hedge, flatMap_cons, foldl_append]

/-- A placed change makes one version entry, or none. -/
theorem versionEntries_encodeDomainEffect (spaces : LogSpaces) (change : RuntimeChange) :
    ((encodeDomainEffect spaces .empty change.scope change).1.flatMap
      fun write => write.versionEntry.toList) =
      (spaces.entryOf change).toList.map fun place => (place, change) := by
  unfold encodeDomainEffect encodeRetirement entryOf
  cases hmutation : change.mutation with
  | relation relation =>
    cases hcurrent : currentRelation spaces .empty change.scope relation.reference <;>
      simp [hcurrent, putAdjacency, deleteCurrentAdjacency, putVersion, LogWrite.versionEntry,
        familyPlace]
  | retire retirement =>
    cases hfamily : retirement.model.family with
    | relation =>
      cases hcurrent : spaces.relation? change.scope retirement.reference <;>
        simp [hfamily, relation?_eq_currentRelation_empty, hcurrent, putTemporalAdjacency,
          deleteCurrentAdjacency, putVersion, LogWrite.versionEntry, familyPlace,
          VersionSpace.ofFamily]
    | _ =>
      simp [hfamily, putVersion, LogWrite.versionEntry, familyPlace, VersionSpace.ofFamily]
  | _ => simp [putVersion, LogWrite.versionEntry, familyPlace]

/-- Placing a change enters it and leaves the other entries alone. -/
theorem LogSpaces.versionAt_place (spaces : LogSpaces) (change : RuntimeChange)
    (hedge : place.isEdge = false) :
    (spaces.place change).versionAt place =
      if spaces.entryOf change = some place then some change else spaces.versionAt place := by
  rw [LogSpaces.place, versionAt_applyAll _ _ hedge, flatMap_cons,
    versionEntries_encodeDomainEffect]
  cases hentry : spaces.entryOf change with
  | none => rfl
  | some other => simp [LogWrite.versionEntry, eq_comm]

/-- Where a change was entered does not depend on what came later. -/
theorem entered_append_of_mem {more : List RuntimeChange} (h : Chain digests 0 none log)
    (hmem : change ∈ log) :
    entered (log ++ more) change = entered log change := by
  have hbounds := h.cursor_bounds hmem
  rw [entered, take_append_of_le_length (by omega), entered]

theorem entered_of_split {more : List RuntimeChange}
    (h : Chain digests 0 none (log ++ change :: more)) :
    entered (log ++ change :: more) change = (replay log).entryOf change := by
  have hcursor : change.cursor = 0 + log.length + 1 := (chain_append.mp h).2.1.1
  rw [entered, show change.cursor - 1 = log.length by omega, take_left]

theorem versionAt_replay (h : Chain digests 0 none log) (hedge : place.isEdge = false) :
    (replay log).versionAt place = some change ↔
      change ∈ log ∧ entered log change = some place := by
  induction log using List.reverseRecOn with
  | nil =>
    have hnone : (replay []).versionAt place = none := by
      cases place <;> rfl
    simp [hnone]
  | append_singleton log last ih =>
    obtain ⟨hlog, hlast⟩ := chain_append.mp h
    have hlast' : entered (log ++ [last]) last = (replay log).entryOf last := entered_of_split h
    rw [replay_append, foldl_cons, foldl_nil, versionAt_place _ _ hedge]
    by_cases hentry : (replay log).entryOf last = some place
    · rw [if_pos hentry]
      constructor
      · rintro heq
        obtain rfl := Option.some.inj heq
        exact ⟨by simp, hlast'.trans hentry⟩
      · rintro ⟨hmem, hplace⟩
        rcases mem_append.mp hmem with hmem | hmem
        -- an older entry at this place would carry another cursor
        · have hold : (replay (log.take (change.cursor - 1))).entryOf change = some place := by
            rw [← entered, ← entered_append_of_mem hlog hmem]
            exact hplace
          have hsame := (cursor_of_entryOf hold).1.symm.trans (cursor_of_entryOf hentry).1
          have hbounds := hlog.cursor_bounds hmem
          have hcursor := hlast.1.1
          omega
        · rw [mem_singleton.mp hmem]
    · rw [if_neg hentry, ih hlog]
      constructor
      · rintro ⟨hmem, hplace⟩
        exact ⟨mem_append_left _ hmem, (entered_append_of_mem hlog hmem).trans hplace⟩
      · rintro ⟨hmem, hplace⟩
        rcases mem_append.mp hmem with hmem | hmem
        · exact ⟨hmem, (entered_append_of_mem hlog hmem).symm.trans hplace⟩
        · rw [mem_singleton.mp hmem, hlast'] at hplace
          exact absurd hplace hentry

end Rrflow.Store

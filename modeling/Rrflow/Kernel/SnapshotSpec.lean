import Rrflow.Kernel.Snapshot

/-!
What a snapshot shows.

Every change concerns one identity of one family from some time on. A snapshot shows
an identity as the last change left it that concerns it and is in effect: as that
version, if it is a put whose window is open, and not at all after a retirement.
-/

namespace Rrflow.Kernel

open Checks List SortedMap Assembly

variable {validAt : Nat} {change : RuntimeChange} {family : RuntimeMutationFamily}
  {reference : RuntimeRef} {tables : Tables} {assembly : Assembly} {changes : List RuntimeChange}

namespace RuntimeChange

/-- The identity that a change writes or retires. -/
def target (change : RuntimeChange) : Option (RuntimeMutationFamily × RuntimeRef) :=
  match change.mutation with
  | .claim _ | .schema _ => none
  | .record value => some (.record, value.reference)
  | .relation value => some (.relation, value.reference)
  | .event event => some (.event, .event event.kind change.cursor)
  | .vector value => some (.vector, value.reference)
  | .seriesSample sample => some (.series, sample.reference)
  | .geo value => some (.geo, value.reference)
  | .object value => some (.object, value.reference)
  | .retire retirement => some (retirement.model.family, retirement.reference)

def effectiveAt (change : RuntimeChange) : Nat :=
  match change.mutation with
  | .claim _ | .schema _ => 0
  | .record value => value.validFrom
  | .relation value => value.validFrom
  | .event _ | .object _ => change.at_
  | .vector value => value.validFrom
  | .seriesSample sample => sample.observedAt
  | .geo value => value.validFrom
  | .retire retirement => retirement.effectiveAt

/-- A change that concerns an identity and is in effect at an instant. -/
def concerns (change : RuntimeChange) (family : RuntimeMutationFamily) (reference : RuntimeRef)
    (validAt : Nat) : Bool :=
  change.target = some (family, reference) && decide (change.effectiveAt ≤ validAt)

theorem demand_eq_none_iff :
    change.demand validAt = none ↔ change.target = none ∨ validAt < change.effectiveAt := by
  unfold demand target effectiveAt
  cases change.mutation <;> simp

theorem target_of_demand {demand : Demand} (h : change.demand validAt = some demand) :
    ∃ family, change.target = some (family, demand.reference) ∧ change.effectiveAt ≤ validAt := by
  unfold RuntimeChange.demand at h
  unfold target effectiveAt
  cases hmutation : change.mutation with
  | claim | schema => simp [hmutation] at h
  | _ =>
    simp only [hmutation] at h
    split at h
    · obtain rfl := Option.some.inj h
      exact ⟨_, rfl, ‹_›⟩
    · cases h

end RuntimeChange

/-- The demand of a change is the same at all times at which it is in effect. -/
theorem Meets.of_effectiveAt (h : Meets tables change.effectiveAt change) (validAt : Nat) :
    Meets tables validAt change := by
  intro demand hdemand
  refine h demand ?_
  unfold RuntimeChange.demand RuntimeChange.effectiveAt at *
  cases hmutation : change.mutation with
  | claim | schema => simp [hmutation] at hdemand
  | _ =>
    simp only [hmutation] at hdemand ⊢
    split at hdemand
    · simpa using hdemand
    · cases hdemand

/-! ### What an assembly holds -/

/-- The version of an identity in an assembly, with the model of its table. -/
def Assembly.holding (assembly : Assembly) (family : RuntimeMutationFamily)
    (reference : RuntimeRef) : Option (RuntimeLogicalModel × RuntimeMutation) :=
  match family with
  | .record => (assembly.records.find? reference).map fun entry => (entry.model, .record entry.value)
  | .relation =>
    (assembly.relations.find? reference).map fun entry => (entry.model, .relation entry.value)
  | .event =>
    (assembly.events.find? reference).map fun entry => (entry.model, .event entry.value.event)
  | .vector => (assembly.vectors.find? reference).map fun entry => (entry.model, .vector entry.value)
  | .series =>
    (assembly.series.find? reference).map fun entry => (entry.model, .seriesSample entry.value)
  | .geo => (assembly.geo.find? reference).map fun entry => (entry.model, .geo entry.value)
  | .object => (assembly.objects.find? reference).map fun entry => (entry.model, .object entry.value)
  | .claim => none

/-- What a change leaves of the identity that it concerns. -/
def RuntimeChange.left (change : RuntimeChange) (model : RuntimeLogicalModel) :
    Option (RuntimeLogicalModel × RuntimeMutation) :=
  match change.mutation with
  | .retire _ => none
  | mutation => some (model, mutation)

theorem Assembly.holding_pass (assembly : Assembly) (change : RuntimeChange)
    (family : RuntimeMutationFamily) (reference : RuntimeRef) :
    (assembly.pass change).holding family reference = assembly.holding family reference := by
  unfold pass addClaim
  cases change.mutation <;> rfl

theorem Values.map_find?_insert {α β : Type} (values : Values α) (f : RuntimeModelValue α → β)
    (reference other : RuntimeRef) (entry : RuntimeModelValue α) :
    ((values.insert reference entry).find? other).map f =
      if reference = other then some (f entry) else (values.find? other).map f := by
  rw [find?_insert]
  by_cases heq : reference = other
  · simp [heq]
  · simp [heq, Ne.symm heq]

theorem Values.map_find?_erase {α β : Type} (values : Values α) (f : RuntimeModelValue α → β)
    (reference other : RuntimeRef) :
    ((values.erase reference).find? other).map f =
      if reference = other then none else (values.find? other).map f := by
  rw [find?_erase]
  by_cases heq : reference = other
  · simp [heq]
  · simp [heq, Ne.symm heq]

theorem Assembly.holding_retire (assembly : Assembly) (retirement : RuntimeRetirement)
    (hclaim : family ≠ .claim) (reference : RuntimeRef) :
    (assembly.retireDataIdentity retirement).holding family reference =
      if retirement.model.family = family ∧ retirement.reference = reference then none
      else assembly.holding family reference := by
  unfold retireDataIdentity
  cases retirement.model.family <;> cases family <;>
    simp only [holding, Values.map_find?_erase, reduceCtorEq, true_and, false_and, if_false,
      ne_eq, not_true] at hclaim ⊢

/-- A change in effect decides what is held of the identity that it concerns. -/
theorem Assembly.holding_write (assembly : Assembly) (change : RuntimeChange)
    (model : RuntimeLogicalModel) (hclaim : family ≠ .claim) (reference : RuntimeRef) :
    (assembly.write change model).holding family reference =
      if change.target = some (family, reference) then change.left model
      else assembly.holding family reference := by
  unfold write RuntimeChange.target RuntimeChange.left
  cases hmutation : change.mutation with
  | retire retirement =>
    simp only [Option.some.injEq, Prod.mk.injEq]
    exact assembly.holding_retire retirement hclaim reference
  | _ =>
    cases family <;>
      simp only [holding, Values.map_find?_insert, Option.some.injEq, Prod.mk.injEq,
        reduceCtorEq, true_and, false_and, if_false]

theorem Assembly.holding_advance (h : Meets tables validAt change) (assembly : Assembly)
    (hclaim : family ≠ .claim) (reference : RuntimeRef) :
    (assembly.advance tables validAt change).holding family reference =
      if change.concerns family reference validAt then
        (tables.find? reference.kind).bind fun table => change.left table.model
      else assembly.holding family reference := by
  unfold advance
  cases hdemand : change.demand validAt with
  | none =>
    have hconcerns : change.concerns family reference validAt = false := by
      rcases RuntimeChange.demand_eq_none_iff.mp hdemand with hnone | hlate
      · simp [RuntimeChange.concerns, hnone]
      · simp [RuntimeChange.concerns, hlate]
    simp only [hconcerns]
    exact assembly.holding_pass change family reference
  | some demand =>
    obtain ⟨table, htable, haccepts⟩ := h demand hdemand
    obtain ⟨family', htarget, hat⟩ := RuntimeChange.target_of_demand hdemand
    simp only [htable, holding_write assembly change table.model hclaim]
    by_cases hconcerns : change.concerns family reference validAt = true
    · have hhere := hconcerns
      simp only [RuntimeChange.concerns, htarget, Bool.and_eq_true, decide_eq_true_eq,
        Option.some.injEq, Prod.mk.injEq] at hhere
      rw [← hhere.1.2, htable, htarget, ← hhere.1.1]
      simp [RuntimeChange.concerns, htarget, hat]
    · have hother : change.target ≠ some (family, reference) := by
        intro heq
        simp [RuntimeChange.concerns, heq, hat] at hconcerns
      rw [if_neg hother, if_neg hconcerns]

/-- The last of some changes that concerns an identity and is in effect. -/
def latestChange (changes : List RuntimeChange) (family : RuntimeMutationFamily)
    (reference : RuntimeRef) (validAt : Nat) : Option RuntimeChange :=
  (changes.filter (·.concerns family reference validAt)).getLast?

theorem Assembly.holding_foldl_advance (h : ∀ change ∈ changes, Meets tables validAt change)
    (hclaim : family ≠ .claim) (reference : RuntimeRef) :
    (changes.foldl (Assembly.advance tables validAt) .empty).holding family reference =
      (latestChange changes family reference validAt).bind fun change =>
        (tables.find? reference.kind).bind fun table => change.left table.model := by
  induction changes using List.reverseRecOn with
  | nil => cases family <;> rfl
  | append_singleton changes last ih =>
    rw [foldl_append, foldl_cons, foldl_nil,
      holding_advance (h last (by simp)) _ hclaim,
      ih fun change hmem => h change (mem_append_left _ hmem), latestChange, latestChange,
      filter_append]
    by_cases hconcerns : last.concerns family reference validAt = true
    · simp [hconcerns]
    · simp [hconcerns]

/-! ### What a snapshot contains -/

/-- A version whose window is open. Values without a window always are. -/
def RuntimeMutation.openAt (validAt : Nat) : RuntimeMutation → Bool
  | .record value => validAtWindow value.validFrom value.validTo validAt
  | .relation value => validAtWindow value.validFrom value.validTo validAt
  | .vector value => validAtWindow value.validFrom value.validTo validAt
  | .geo value => validAtWindow value.validFrom value.validTo validAt
  | _ => true

variable {α : Type}

/-- The entries of a map lie under the identities of their values. -/
def Values.Keyed (name : α → RuntimeRef) (values : Values α) : Prop :=
  ∀ reference entry, values.find? reference = some entry → name entry.value = reference

variable {name : α → RuntimeRef} {values : Values α}

theorem Values.Keyed.insert (h : values.Keyed name) {entry : RuntimeModelValue α}
    (hname : name entry.value = reference) : Values.Keyed name (values.insert reference entry) := by
  intro other found hfound
  rw [find?_insert] at hfound
  split at hfound
  · obtain rfl := Option.some.inj hfound
    exact hname.trans (Eq.symm ‹_›)
  · exact h other found hfound

theorem Values.Keyed.erase (h : values.Keyed name) (reference : RuntimeRef) :
    Values.Keyed name (values.erase reference) := by
  intro other found hfound
  rw [find?_erase] at hfound
  split at hfound
  · cases hfound
  · exact h other found hfound

theorem Values.Keyed.any_values (h : values.Keyed name) {entry : RuntimeModelValue α}
    (hfind : values.find? reference = some entry) {p : RuntimeModelValue α → Bool}
    (hp : p entry = true) :
    (values.values.any fun entry => p entry && name entry.value = reference) = true := by
  refine any_eq_true.mpr ⟨entry, mem_map.mpr ⟨_, mem_toList_iff.mpr hfind, rfl⟩, ?_⟩
  simp [hp, h reference entry hfind]

structure Assembly.Keyed (assembly : Assembly) : Prop where
  records : Values.Keyed RuntimeRecord.reference assembly.records
  relations : Values.Keyed RuntimeRelation.reference assembly.relations
  events : Values.Keyed RuntimeEventValue.reference assembly.events
  vectors : Values.Keyed RuntimeVector.reference assembly.vectors
  series : Values.Keyed RuntimeSeriesSample.reference assembly.series
  geo : Values.Keyed RuntimeGeo.reference assembly.geo
  objects : Values.Keyed ObjectReference.reference assembly.objects

theorem Assembly.Keyed.retire (h : assembly.Keyed) (retirement : RuntimeRetirement) :
    (assembly.retireDataIdentity retirement).Keyed := by
  unfold retireDataIdentity
  cases retirement.model.family with
  | record => exact { h with records := h.records.erase _ }
  | relation => exact { h with relations := h.relations.erase _ }
  | event => exact { h with events := h.events.erase _ }
  | vector => exact { h with vectors := h.vectors.erase _ }
  | series => exact { h with series := h.series.erase _ }
  | geo => exact { h with geo := h.geo.erase _ }
  | object => exact { h with objects := h.objects.erase _ }
  | claim => exact h

theorem Assembly.Keyed.write (h : assembly.Keyed) (change : RuntimeChange)
    (model : RuntimeLogicalModel) : (assembly.write change model).Keyed := by
  unfold Assembly.write
  cases change.mutation with
  | record value => exact { h with records := h.records.insert rfl }
  | relation value => exact { h with relations := h.relations.insert rfl }
  | event event => exact { h with events := h.events.insert rfl }
  | vector value => exact { h with vectors := h.vectors.insert rfl }
  | seriesSample sample => exact { h with series := h.series.insert rfl }
  | geo value => exact { h with geo := h.geo.insert rfl }
  | object value => exact { h with objects := h.objects.insert rfl }
  | retire retirement => exact h.retire retirement
  | claim | schema => exact h

theorem Assembly.Keyed.advance (h : assembly.Keyed) (tables : Tables) (validAt : Nat)
    (change : RuntimeChange) : (assembly.advance tables validAt change).Keyed := by
  unfold Assembly.advance
  split
  · unfold pass addClaim
    cases change.mutation <;> exact ⟨h.1, h.2, h.3, h.4, h.5, h.6, h.7⟩
  · split
    · exact h
    · exact h.write change _

theorem Assembly.Keyed.foldl_advance (tables : Tables) (validAt : Nat)
    (changes : List RuntimeChange) :
    (changes.foldl (Assembly.advance tables validAt) .empty).Keyed := by
  induction changes using List.reverseRecOn with
  | nil => constructor <;> intro reference entry hfind <;> cases hfind
  | append_singleton changes last ih =>
    rw [foldl_append]
    exact ih.advance tables validAt last

theorem RuntimeDataSnapshot.contains_ofAssembly (h : assembly.Keyed) (scope : ScopeId)
    (validAt knownAtCursor revision : Nat) {model : RuntimeLogicalModel} {version : RuntimeMutation}
    (hheld : assembly.holding model.family reference = some (model, version))
    (hopen : version.openAt validAt = true) :
    (ofAssembly assembly scope validAt knownAtCursor revision).contains model reference = true := by
  unfold contains ofAssembly
  cases hcase : model.family <;> rw [hcase] at hheld
  case claim => cases hheld
  all_goals
    obtain ⟨entry, hfind, hentry⟩ := Option.map_eq_some_iff.mp hheld
    obtain ⟨hmodel, rfl⟩ := Prod.mk.inj hentry
  case record =>
    simp only [any_filter, ← Bool.and_assoc]
    exact h.records.any_values hfind (by simpa [hmodel, RuntimeMutation.openAt] using hopen)
  case relation =>
    simp only [any_filter, ← Bool.and_assoc]
    exact h.relations.any_values hfind (by simpa [hmodel, RuntimeMutation.openAt] using hopen)
  case event => exact h.events.any_values hfind (by simpa using hmodel)
  case vector =>
    simp only [any_filter]
    exact h.vectors.any_values hfind hopen
  case series => simpa using h.series.any_values hfind (p := fun _ => true) rfl
  case geo =>
    simp only [any_filter]
    exact h.geo.any_values hfind hopen
  case object => simpa using h.objects.any_values hfind (p := fun _ => true) rfl

theorem latestChange_eq_some (h : latestChange changes family reference validAt = some change) :
    change ∈ changes ∧ change.target = some (family, reference) ∧ change.effectiveAt ≤ validAt := by
  have hmem := mem_filter.mp (mem_of_getLast? h)
  simpa [RuntimeChange.concerns] using hmem

/-- A snapshot contains an identity under the model of its table when the last change
that concerns it is a put whose window is open. -/
theorem RuntimeDataSnapshot.contains_of_latestChange
    (h : ∀ change ∈ changes, Meets tables validAt change) (scope : ScopeId)
    (knownAtCursor revision : Nat) {table : RuntimeTableSchema}
    (htable : tables.find? reference.kind = some table)
    (hlatest : latestChange changes table.model.family reference validAt = some change)
    (hput : change.mutation.retirement? = none) (hopen : change.mutation.openAt validAt = true) :
    (ofAssembly (changes.foldl (Assembly.advance tables validAt) .empty) scope validAt
      knownAtCursor revision).contains table.model reference = true := by
  have hclaim : table.model.family ≠ .claim := by
    intro hclaim
    have htarget := (latestChange_eq_some hlatest).2.1
    unfold RuntimeChange.target at htarget
    cases hmutation : change.mutation with
    | retire retirement => simp [hmutation, RuntimeMutation.retirement?] at hput
    | _ => simp [hmutation, hclaim] at htarget
  have hleft : change.left table.model = some (table.model, change.mutation) := by
    unfold RuntimeChange.left
    split
    · next hretire => simp [hretire, RuntimeMutation.retirement?] at hput
    · rfl
  refine contains_ofAssembly (.foldl_advance ..) scope validAt knownAtCursor revision ?_ hopen
  rw [Assembly.holding_foldl_advance h hclaim, hlatest, Option.bind_some, htable, Option.bind_some,
    hleft]

end Rrflow.Kernel

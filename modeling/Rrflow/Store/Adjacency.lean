import Rrflow.Store.VersionIndex

/-!
The current adjacency.

Every current relation has one row at each of its ends, under a key that the relation
determines itself. A put or a retirement first removes the rows of what the staged
relations say is current, so no row stays behind at an end that a relation has left.
-/

namespace Rrflow.Store

open Kernel Checks SortedMap LogSpaces

variable {externals : Externals} {spaces : LogSpaces} {direction : Direction} {scope : ScopeId}
  {reference : RuntimeRef}

def LogSpaces.relationRows (spaces : LogSpaces) (scope : ScopeId) :
    Set (IdentityKey × RuntimeRelation) :=
  {row | (ofLex row.1).1 = scope ∧ spaces.relations.find? row.1 = some row.2}

def LogSpaces.edgeRows (spaces : LogSpaces) (direction : Direction) (scope : ScopeId) :
    Set (EdgeKey × RuntimeRelation) :=
  {row | (ofLex row.1).1 = scope ∧ (spaces.edges direction).find? row.1 = some row.2}

def edgesWithout (spaces : LogSpaces) (direction : Direction) (scope : ScopeId)
    (reference : RuntimeRef) : SortedMap EdgeKey RuntimeRelation :=
  match spaces.relation? scope reference with
  | some previous => (spaces.edges direction).erase (edgeKey direction scope previous)
  | none => spaces.edges direction

/-- The edges of a direction when another value is current for a relation. -/
def edgesAfter (spaces : LogSpaces) (direction : Direction) (scope : ScopeId)
    (reference : RuntimeRef) : Option RuntimeRelation → SortedMap EdgeKey RuntimeRelation
  | some relation => (edgesWithout spaces direction scope reference).insert
      (edgeKey direction scope relation) relation
  | none => edgesWithout spaces direction scope reference

/-- A change concerns at most one relation: it gives it another value or none. -/
theorem LogSpaces.place_relations (spaces : LogSpaces) (change : RuntimeChange) :
    ((spaces.place change).relations = spaces.relations ∧
      (spaces.place change).edges = spaces.edges) ∨
    ∃ reference value, (∀ relation ∈ value, relation.reference = reference) ∧
      (spaces.place change).relations =
        spaces.relations.assign (identityKey change.scope reference) value ∧
      ∀ direction, (spaces.place change).edges direction =
        edgesAfter spaces direction change.scope reference value := by
  have hrelations : (spaces.place change).relations =
      relationsAfter spaces.relations change.scope change :=
    (applyAll_encodeDomainEffect _ _ _ _ _).1
  rw [hrelations]
  unfold relationsAfter place encodeDomainEffect encodeRetirement edgesAfter edgesWithout
  cases change.mutation with
  | relation relation =>
    refine .inr ⟨relation.reference, some relation, by simp, rfl, fun direction => ?_⟩
    simp only [relation?_eq_currentRelation_empty]
    cases spaces.relation? change.scope relation.reference <;> cases direction <;>
      simp [putAdjacency, deleteCurrentAdjacency, putVersion, apply]
  | retire retirement =>
    cases hfamily : retirement.model.family with
    | relation =>
      refine .inr ⟨retirement.reference, none, by simp, by simp [hfamily], fun direction => ?_⟩
      simp only [relation?_eq_currentRelation_empty]
      cases spaces.relation? change.scope retirement.reference <;> cases direction <;>
        simp [hfamily, putTemporalAdjacency, deleteCurrentAdjacency, putVersion, apply]
    | _ => exact .inl ⟨by simp [hfamily], by simp [hfamily, putVersion, apply]⟩
  | _ => exact .inl ⟨rfl, by simp [putVersion, apply]⟩

def edgeOwner (key : EdgeKey) : IdentityKey :=
  let rest := ofLex (ofLex (ofLex key).2).2
  identityKey (ofLex key).1 (.of rest.1 (ofLex rest.2).2)

@[simp] theorem edgeOwner_edgeKey (direction : Direction) (scope : ScopeId)
    (relation : RuntimeRelation) :
    edgeOwner (edgeKey direction scope relation) = identityKey scope relation.reference := rfl

/-- Current relations lie under their identities, and there is an edge where the current
relation would put one. -/
structure Mirrored (spaces : LogSpaces) : Prop where
  keyed : ∀ scope reference relation, spaces.relation? scope reference = some relation →
    relation.reference = reference
  edges : ∀ direction key, (spaces.edges direction).find? key =
    (spaces.relations.find? (edgeOwner key)).filter
      fun relation => edgeKey direction (ofLex key).1 relation = key

theorem Mirrored.find?_edgesWithout (h : Mirrored spaces) (key : EdgeKey) :
    (edgesWithout spaces direction scope reference).find? key =
      if edgeOwner key = identityKey scope reference then none
      else (spaces.edges direction).find? key := by
  unfold edgesWithout
  cases hprevious : spaces.relation? scope reference with
  | none =>
    by_cases howner : edgeOwner key = identityKey scope reference
    · rw [if_pos howner, h.edges, howner]
      exact congrArg (Option.filter _) hprevious
    · rw [if_neg howner]
  | some previous =>
    have hreference := h.keyed _ _ _ hprevious
    simp only [find?_erase]
    by_cases hkey : key = edgeKey direction scope previous
    · rw [if_pos hkey, if_pos (by rw [hkey, edgeOwner_edgeKey, hreference])]
    · rw [if_neg hkey]
      split
      · rename_i howner
        have hscope : (ofLex key).1 = scope := congrArg (fun id => (ofLex id).1) howner
        rw [h.edges, howner, hscope]
        refine (congrArg (Option.filter _) hprevious).trans ?_
        simp [Option.filter_some, Ne.symm hkey]
      · rfl

theorem Mirrored.replaced (h : Mirrored spaces) {after : LogSpaces}
    {value : Option RuntimeRelation} (hvalue : ∀ relation ∈ value, relation.reference = reference)
    (hrelations : after.relations = spaces.relations.assign (identityKey scope reference) value)
    (hedges : ∀ direction, after.edges direction =
      edgesAfter spaces direction scope reference value) : Mirrored after := by
  constructor
  · intro other r relation hfound
    rw [relation?, hrelations, find?_assign] at hfound
    split at hfound
    · rename_i hhere
      exact (hvalue relation hfound).trans (congrArg (fun id => (ofLex id).2) hhere).symm
    · exact h.keyed _ _ _ hfound
  · intro direction key
    rw [hedges, hrelations, find?_assign]
    by_cases howner : edgeOwner key = identityKey scope reference
    · have hscope : (ofLex key).1 = scope := congrArg (fun id => (ofLex id).1) howner
      rw [if_pos howner, hscope]
      cases value with
      | none => simp [edgesAfter, h.find?_edgesWithout, howner]
      | some relation =>
        simp [edgesAfter, find?_insert, h.find?_edgesWithout, howner, Option.filter_some, eq_comm]
    · rw [if_neg howner, ← h.edges]
      cases value with
      | none => simp [edgesAfter, h.find?_edgesWithout, howner]
      | some relation =>
        have hne : key ≠ edgeKey direction scope relation := by
          rintro rfl
          exact howner (by rw [edgeOwner_edgeKey, hvalue relation rfl])
        simp [edgesAfter, find?_insert, hne, h.find?_edgesWithout, howner]

theorem mirrored_replay (log : List RuntimeChange) : Mirrored (replay log) := by
  induction log using List.reverseRecOn with
  | nil => exact ⟨fun _ _ _ h => (by cases h), fun _ _ => rfl⟩
  | append_singleton log change ih =>
    rw [replay_append, List.foldl_cons, List.foldl_nil]
    rcases (replay log).place_relations change with ⟨hrelations, hedges⟩ |
      ⟨reference, value, hvalue, hrelations, hedges⟩
    · constructor
      · simpa only [relation?, hrelations] using ih.keyed
      · simpa only [hrelations, hedges] using ih.edges
    · exact ih.replaced hvalue hrelations hedges

theorem Mirrored.mem_edgeRows (h : Mirrored spaces) {row : EdgeKey × RuntimeRelation} :
    row ∈ spaces.edgeRows direction scope ↔ row.1 = edgeKey direction scope row.2 ∧
      spaces.relation? scope row.2.reference = some row.2 := by
  simp only [edgeRows, h.edges, Option.filter_eq_some_iff, decide_eq_true_eq, Set.mem_ofPred_eq]
  constructor
  · rintro ⟨rfl, hfind, hkey⟩
    rw [← hkey, edgeOwner_edgeKey] at hfind
    exact ⟨hkey.symm, hfind⟩
  · rintro ⟨hkey, hrow⟩
    rw [hkey]
    exact ⟨rfl, hrow, rfl⟩

theorem Mirrored.bijOn (h : Mirrored spaces) (direction : Direction) (scope : ScopeId) :
    Set.BijOn (fun row => (edgeKey direction scope row.2, row.2)) (spaces.relationRows scope)
      (spaces.edgeRows direction scope) := by
  have hkey {row : IdentityKey × RuntimeRelation} (hrow : row ∈ spaces.relationRows scope) :
      row.1 = identityKey scope row.2.reference := by
    rw [h.keyed (ofLex row.1).1 (ofLex row.1).2 row.2 hrow.2, ← hrow.1]
    rfl
  refine ⟨fun row hrow => ?_, fun a ha b hb heq => ?_, fun row hrow => ?_⟩
  · exact h.mem_edgeRows.mpr ⟨rfl, by rw [relation?, ← hkey hrow]; exact hrow.2⟩
  · have hvalue : a.2 = b.2 := (Prod.mk.inj heq).2
    exact Prod.ext (by rw [hkey ha, hkey hb, hvalue]) hvalue
  · obtain ⟨hedge, hcurrent⟩ := h.mem_edgeRows.mp hrow
    exact ⟨(identityKey scope row.2.reference, row.2), ⟨rfl, hcurrent⟩, Prod.ext hedge.symm rfl⟩

/-- In both directions the edges are in bijection with the current relations. A relation
is current exactly when the rows under its identity are, in each direction, the one row
that it determines; without a current value there is no row. -/
theorem adjacency_mirrors_relations {state : State} (h : Reachable externals state)
    (scope : ScopeId) :
    (∀ direction, Set.BijOn (fun row => (edgeKey direction scope row.2, row.2))
      (state.logged.relationRows scope) (state.logged.edgeRows direction scope)) ∧
    (∀ relation, state.logged.relation? scope relation.reference = some relation ↔
      ∀ direction, {row ∈ state.logged.edgeRows direction scope |
        row.2.reference = relation.reference} = {(edgeKey direction scope relation, relation)}) ∧
    ∀ reference, state.logged.relation? scope reference = none →
      ∀ direction, ∀ row ∈ state.logged.edgeRows direction scope, row.2.reference ≠ reference := by
  have hmirrored : Mirrored state.logged := by
    rw [h.whole.logged]
    exact mirrored_replay _
  refine ⟨fun direction => hmirrored.bijOn direction scope, fun relation => ⟨?_, ?_⟩, ?_⟩
  · intro hcurrent direction
    ext row
    simp only [Set.mem_ofPred_eq, hmirrored.mem_edgeRows, Set.mem_singleton_iff]
    constructor
    · rintro ⟨⟨hkey, hrow⟩, hsame⟩
      obtain heq : row.2 = relation := Option.some.inj (hrow.symm.trans (hsame ▸ hcurrent))
      exact Prod.ext (heq ▸ hkey) heq
    · rintro rfl
      exact ⟨⟨rfl, hcurrent⟩, rfl⟩
  · intro hrows
    have hmem : (edgeKey .outgoing scope relation, relation) ∈
        {row ∈ state.logged.edgeRows .outgoing scope | row.2.reference = relation.reference} := by
      rw [hrows .outgoing]
      rfl
    exact (hmirrored.mem_edgeRows.mp hmem.1).2
  · intro reference hnone direction row hrow hsame
    have hcurrent := (hmirrored.mem_edgeRows.mp hrow).2
    rw [hsame, hnone] at hcurrent
    cases hcurrent

theorem b_valid : checkCanonical "runtime id" "b" = .ok () ∨
    ∃ cursor : Nat, "b" = eventIdStart ++ toString cursor := .inl (by decide)

/-- The relation of the retirements above, moved to another end. -/
def movedLink : RuntimeRelation := { link with to_ := .of nodeKind ⟨"b", b_valid⟩ }

/-- One commit retires a relation and puts it again with another end. -/
def relinked : List Request :=
  [.plain (proposal 0 [.schema graphSchema, .record node, .relation link,
      .record { node with reference := movedLink.to_ }]),
    .plain (proposal 4 [retireLink 100, .relation movedLink])]

theorem adjacency_mirrors_relinked : ∃ state, run .numbered relinked = .ok state ∧
    {row ∈ state.logged.edgeRows .incoming tenant | row.2.reference = link.reference} =
      {(edgeKey .incoming tenant movedLink, movedLink)} := by
  have hrun : (run .numbered relinked).toOption.any (fun state =>
      state.logged.relation? tenant link.reference = some movedLink) = true := by
    decide +kernel
  obtain ⟨state, hok, htest⟩ := exists_ok_of_any hrun
  refine ⟨state, hok, ?_⟩
  exact ((adjacency_mirrors_relations (reachable_of_run hok) tenant).2.1 movedLink).mp
    (of_decide_eq_true htest) .incoming

end Rrflow.Store

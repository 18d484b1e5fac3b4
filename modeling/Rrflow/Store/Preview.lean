import Rrflow.Lib.Overwrite
import Rrflow.Store.VersionIndex

/-!
The graph that a transaction would leave.

A preview applies the pending mutations to a graph without its expired values. A
committed graph is assembled by one pass over the whole log, and its expired values
are left out at the end. Both come to the same, because a mutation puts a value in
place or takes one away and never looks at what was there.
-/

namespace Rrflow.Kernel

open Checks Overwrite List SortedMap

/-- The graph of a scope at a cursor and an instant of valid time. -/
structure RuntimeGraphSnapshot where
  scope : ScopeId
  validAt : Nat
  knownAtCursor : Nat
  records : List RuntimeRecord
  relations : List RuntimeRelation
  deriving DecidableEq

/-- A commit bound to the state from which it was made. -/
structure DataTransaction where
  contractVersion : Nat
  read : ReadStamp
  commit : RuntimeCommit
  deriving DecidableEq

/-- The graph as a transaction sees it that is not committed. -/
structure DataTransactionView where
  contractVersion : Nat
  transactionDigest : String
  read : ReadStamp
  validAt : Nat
  prospectiveCursor : Nat
  pendingMutations : Nat
  pending : List RuntimeMutation
  records : List RuntimeRecord
  relations : List RuntimeRelation
  deriving DecidableEq

structure GraphMaps where
  records : SortedMap RuntimeRef RuntimeRecord
  relations : SortedMap RuntimeRef RuntimeRelation

def emittedType : RuntimeType := ⟨"emitted", by decide⟩

def eventRecord (cursor at_ : Nat) (event : RuntimeEvent) : RuntimeRecord where
  reference := .event event.kind cursor
  validFrom := at_
  validTo := none
  properties := event.properties

def emittedRelation (cursor at_ : Nat) (event : RuntimeEvent) (subject : RuntimeRef) :
    RuntimeRelation where
  reference := .event emittedType cursor
  from_ := subject
  to_ := .event event.kind cursor
  validFrom := at_
  validTo := none
  properties := .empty

namespace GraphMaps

variable (maps : GraphMaps)

/-- The edge from a subject to its event goes with the event. -/
def retireGraphIdentity (retirement : RuntimeRetirement) : GraphMaps :=
  match retirement.model.family with
  | .record => { maps with records := maps.records.erase retirement.reference }
  | .relation => { maps with relations := maps.relations.erase retirement.reference }
  | .event =>
    { records := maps.records.erase retirement.reference
      relations := maps.relations.erase (.of emittedType retirement.reference.id) }
  | .vector | .series | .geo | .object | .claim => maps

/-- The effect of a mutation at a cursor. Versions that have not begun are passed over; events
are nodes of their own. -/
def place (validAt cursor at_ : Nat) (maps : GraphMaps) : RuntimeMutation → GraphMaps
  | .record record =>
    if record.validFrom ≤ validAt then
      { maps with records := maps.records.insert record.reference record }
    else maps
  | .relation relation =>
    if relation.validFrom ≤ validAt then
      { maps with relations := maps.relations.insert relation.reference relation }
    else maps
  | .event event =>
    let record := eventRecord cursor at_ event
    let records := maps.records.insert record.reference record
    match event.subject with
    | none => { maps with records }
    | some subject =>
      let relation := emittedRelation cursor at_ event subject
      { records, relations := maps.relations.insert relation.reference relation }
  | .retire retirement =>
    if retirement.effectiveAt ≤ validAt then maps.retireGraphIdentity retirement else maps
  | .claim _ | .schema _ | .vector _ | .seriesSample _ | .geo _ | .object _ => maps

def ofChanges (validAt : Nat) (changes : List RuntimeChange) : GraphMaps :=
  changes.foldl (fun maps change => maps.place validAt change.cursor change.at_ change.mutation)
    ⟨.empty, .empty⟩

def recordsAt (validAt : Nat) : List RuntimeRecord :=
  maps.records.values.filter fun record =>
    validAtWindow record.validFrom record.validTo validAt

def relationsAt (validAt : Nat) : List RuntimeRelation :=
  maps.relations.values.filter fun relation =>
    validAtWindow relation.validFrom relation.validTo validAt

end GraphMaps

def RuntimeGraphSnapshot.fromChanges (changes : List RuntimeChange) (scope : ScopeId)
    (validAt knownAtCursor : Nat) : RuntimeGraphSnapshot :=
  let maps := GraphMaps.ofChanges validAt (visibleChanges changes scope knownAtCursor)
  { scope, validAt, knownAtCursor
    records := maps.recordsAt validAt, relations := maps.relationsAt validAt }

variable (digests : Digests)

def DataTransaction.validate (floats : Floats) (transaction : DataTransaction) :
    Except Error Unit := do
  ensure (transaction.contractVersion = dataRuntimeContractVersion)
    (.invalidRuntime ("unsupported transaction contract version " ++
      toString transaction.contractVersion))
  transaction.read.validate digests
  transaction.commit.validate floats
  ensure (transaction.read.scope = transaction.commit.scope)
    (.invalidRuntime "transaction read scope differs from commit scope")
  ensure (transaction.read.commitCursor = transaction.commit.expectedCursor)
    (.invalidRuntime "transaction expected cursor differs from its read stamp")

def DataTransactionView.validate (view : DataTransactionView) : Except Error Unit := do
  ensure (view.contractVersion = dataRuntimeContractVersion)
    (.invalidRuntime ("unsupported transaction-view contract version " ++
      toString view.contractVersion))
  view.read.validate digests
  validateHex "transaction view" view.transactionDigest
  ensure (view.read.commitCursor + view.pendingMutations ≤ Store.u64Max)
    (.invalidRuntime "transaction view cursor overflowed")
  ensure (view.prospectiveCursor = view.read.commitCursor + view.pendingMutations)
    (.invalidRuntime "transaction view cursor does not cover its pending mutations")
  ensure (view.pending.length = view.pendingMutations)
    (.invalidRuntime "transaction view pending count does not match its mutations")

/-- The pending mutations at the cursors they would get. -/
def GraphMaps.placePending (validAt head at_ : Nat) (maps : GraphMaps)
    (pending : List (RuntimeMutation × Nat)) : GraphMaps :=
  pending.foldl (fun maps entry => maps.place validAt (head + entry.2 + 1) at_ entry.1) maps

section Preview

variable (floats : Floats) (digest : DataTransaction → {value : String // IsHex value})
  (transaction : DataTransaction) (base : RuntimeGraphSnapshot)

/-- The pending mutations over the graph that the transaction has read. -/
def DataTransaction.viewOver : DataTransactionView :=
  let mutations := transaction.commit.mutations
  let maps := GraphMaps.placePending base.validAt transaction.read.commitCursor
    transaction.commit.at_ ⟨table RuntimeRecord.reference base.records,
      table RuntimeRelation.reference base.relations⟩ mutations.zipIdx
  { contractVersion := dataRuntimeContractVersion, transactionDigest := digest transaction
    read := transaction.read, validAt := base.validAt
    prospectiveCursor := transaction.read.commitCursor + mutations.length
    pendingMutations := mutations.length, pending := mutations
    records := maps.recordsAt base.validAt, relations := maps.relationsAt base.validAt }

def DataTransaction.preview : Except Error DataTransactionView := do
  transaction.validate digests floats
  ensure (base.scope = transaction.read.scope)
    (.invalidRuntime "transaction preview scope differs from its read stamp")
  ensure (base.knownAtCursor = transaction.read.commitCursor)
    (.invalidRuntime "transaction preview cursor differs from its read stamp")
  ensure (transaction.read.commitCursor + transaction.commit.mutations.length ≤ Store.u64Max)
    (.invalidRuntime "transaction preview cursor overflowed")
  let view := transaction.viewOver digest base
  view.validate digests
  return view

variable {digests floats digest transaction base} {view : DataTransactionView}

theorem DataTransaction.validate_eq_ok : transaction.validate digests floats = .ok () ↔
    transaction.contractVersion = dataRuntimeContractVersion ∧
    transaction.read.validate digests = .ok () ∧ transaction.commit.validate floats = .ok () ∧
    transaction.read.scope = transaction.commit.scope ∧
    transaction.read.commitCursor = transaction.commit.expectedCursor := by
  simp only [DataTransaction.validate, bind_eq_ok, ensure_eq_ok, Unique.exists_iff]

theorem DataTransaction.preview_eq_ok (hvalid : transaction.validate digests floats = .ok ()) :
    transaction.preview digests floats digest base = .ok view ↔
      base.scope = transaction.read.scope ∧ base.knownAtCursor = transaction.read.commitCursor ∧
      transaction.read.commitCursor + transaction.commit.mutations.length ≤ Store.u64Max ∧
      view = transaction.viewOver digest base := by
  have hread := (validate_eq_ok.mp hvalid).2.1
  have hview : transaction.read.commitCursor + transaction.commit.mutations.length ≤
      Store.u64Max → (transaction.viewOver digest base).validate digests = .ok () := by
    intro hle
    have hhex : validateHex "transaction view" (digest transaction) = .ok () :=
      validateHex_eq_ok.mpr (digest transaction).2
    simp [DataTransactionView.validate, viewOver, hread, hhex, hle, bind_eq_ok]
  simp only [preview, hvalid, ok_bind, bind_eq_ok, ensure_eq_ok, Unique.exists_iff]
  refine and_congr_right fun _ => and_congr_right fun _ => and_congr_right fun hle => ?_
  rw [hview hle]
  exact ⟨fun h => (Except.ok.inj h.2).symm, fun h => ⟨rfl, congrArg Except.ok h.symm⟩⟩

end Preview

/-! ### Expired values -/

namespace GraphMaps

variable {validAt : Nat}

variable (maps : GraphMaps)

/-- What a graph shows of its maps. -/
def shown (validAt : Nat) : GraphMaps where
  records := maps.records.filter fun _ record =>
    validAtWindow record.validFrom record.validTo validAt
  relations := maps.relations.filter fun _ relation =>
    validAtWindow relation.validFrom relation.validTo validAt

theorem recordsAt_eq : maps.recordsAt validAt = (maps.shown validAt).records.values :=
  filter_map

theorem relationsAt_eq : maps.relationsAt validAt = (maps.shown validAt).relations.values :=
  filter_map

/-- The values lie under their references. -/
structure Keyed (maps : GraphMaps) : Prop where
  records : ∀ k record, maps.records.find? k = some record → record.reference = k
  relations : ∀ k relation, maps.relations.find? k = some relation → relation.reference = k

/-- A mutation touches at most one node and one edge, whatever the graph is. -/
theorem place_eq_touch (validAt cursor at_ : Nat) (mutation : RuntimeMutation) :
    ∃ (node : Option (RuntimeRef × Option RuntimeRecord))
      (edge : Option (RuntimeRef × Option RuntimeRelation)),
      (∀ k record, node = some (k, some record) → record.reference = k) ∧
      (∀ k relation, edge = some (k, some relation) → relation.reference = k) ∧
      ∀ maps : GraphMaps, maps.place validAt cursor at_ mutation =
        ⟨maps.records.touch node, maps.relations.touch edge⟩ := by
  cases mutation with
  | record record =>
    by_cases h : record.validFrom ≤ validAt
    · exact ⟨some (_, some record), none, by simp, by simp, fun _ => if_pos h⟩
    · exact ⟨none, none, by simp, by simp, fun _ => if_neg h⟩
  | relation relation =>
    by_cases h : relation.validFrom ≤ validAt
    · exact ⟨none, some (_, some relation), by simp, by simp, fun _ => if_pos h⟩
    · exact ⟨none, none, by simp, by simp, fun _ => if_neg h⟩
  | event event =>
    let record := eventRecord cursor at_ event
    cases hsubject : event.subject with
    | none =>
      refine ⟨some (record.reference, some record), none, by simp, by simp, fun _ => ?_⟩
      simp only [place, hsubject]
      rfl
    | some subject =>
      let relation := emittedRelation cursor at_ event subject
      refine ⟨some (record.reference, some record), some (relation.reference, some relation),
        by simp, by simp, fun _ => ?_⟩
      simp only [place, hsubject]
      rfl
  | retire retirement =>
    by_cases h : retirement.effectiveAt ≤ validAt
    · simp only [place, if_pos h, retireGraphIdentity]
      cases retirement.model.family with
      | record => exact ⟨some (_, none), none, by simp, by simp, fun _ => rfl⟩
      | relation => exact ⟨none, some (_, none), by simp, by simp, fun _ => rfl⟩
      | event => exact ⟨some (_, none), some (_, none), by simp, by simp, fun _ => rfl⟩
      | vector | series | geo | object | claim => exact ⟨none, none, by simp, by simp, fun _ => rfl⟩
    · exact ⟨none, none, by simp, by simp, fun _ => if_neg h⟩
  | claim | schema | vector | seriesSample | geo | object => exact ⟨none, none, by simp, by simp, fun _ => rfl⟩

theorem Keyed.place {maps : GraphMaps} (h : maps.Keyed) (cursor at_ : Nat)
    (mutation : RuntimeMutation) : (maps.place validAt cursor at_ mutation).Keyed := by
  obtain ⟨node, edge, hnode, hedge, heq⟩ := place_eq_touch validAt cursor at_ mutation
  rw [heq]
  exact ⟨keyed_touch h.records hnode, keyed_touch h.relations hedge⟩

theorem shown_place (cursor at_ : Nat) (mutation : RuntimeMutation) :
    ((maps.shown validAt).place validAt cursor at_ mutation).shown validAt =
      (maps.place validAt cursor at_ mutation).shown validAt := by
  obtain ⟨node, edge, -, -, heq⟩ := place_eq_touch validAt cursor at_ mutation
  simp only [heq, shown, filter_touch_filter]

/-- The expired values of a graph do not matter for what comes after. -/
theorem shown_placePending (head at_ : Nat) (pending : List (RuntimeMutation × Nat)) :
    (placePending validAt head at_ (maps.shown validAt) pending).shown validAt =
      (placePending validAt head at_ maps pending).shown validAt := by
  induction pending generalizing maps with
  | nil => simp [placePending, shown]
  | cons entry rest ih =>
    unfold placePending at ih ⊢
    rw [foldl_cons, foldl_cons, ← ih, shown_place, ih]

theorem Keyed.table_shown {maps : GraphMaps} (h : maps.Keyed) :
    (⟨table RuntimeRecord.reference (maps.recordsAt validAt),
      table RuntimeRelation.reference (maps.relationsAt validAt)⟩ : GraphMaps) =
      maps.shown validAt := by
  rw [recordsAt_eq, relationsAt_eq, table_values, table_values]
  · exact fun k _ hfind => h.relations k _ (find?_filter_eq_some.mp hfind).1
  · exact fun k _ hfind => h.records k _ (find?_filter_eq_some.mp hfind).1

theorem keyed_ofChanges (validAt : Nat) (changes : List RuntimeChange) :
    (ofChanges validAt changes).Keyed := by
  induction changes using List.reverseRecOn with
  | nil => exact ⟨by simp [ofChanges], by simp [ofChanges]⟩
  | append_singleton changes change ih =>
    rw [ofChanges, foldl_concat]
    exact ih.place ..

end GraphMaps

end Rrflow.Kernel

namespace Rrflow.Store

open Kernel Checks

variable {digests : Digests} {floats : Floats} {commit : RuntimeCommit} {previous : Option String}

theorem foldl_commitChanges (validAt head n ordinal : Nat) (previous : Option String)
    (mutations : List RuntimeMutation) (maps : GraphMaps) :
    (commitChanges digests commit (head + n) ordinal previous mutations).foldl (fun maps change =>
        maps.place validAt change.cursor change.at_ change.mutation) maps =
      maps.placePending validAt head commit.at_ (mutations.zipIdx n) := by
  induction mutations generalizing n ordinal previous maps with
  | nil => rfl
  | cons mutation rest ih => exact ih (n + 1) (ordinal + 1) _ _

theorem visibleChanges_commit {log : List RuntimeChange} {head : Nat}
    (hhead : ∀ change ∈ log, change.cursor ≤ head) :
    visibleChanges (log ++ commitChanges digests commit head 0 previous commit.mutations)
        commit.scope (head + commit.mutations.length) =
      visibleChanges log commit.scope head ++
        commitChanges digests commit head 0 previous commit.mutations := by
  unfold visibleChanges
  rw [List.filter_append]
  congr 1
  · refine List.filter_congr fun change hmem => ?_
    have := hhead change hmem
    simp [this, this.trans (Nat.le_add_right ..)]
  · refine List.filter_eq_self.mpr fun change hmem => ?_
    have hbound := ((chain_commitChanges digests commit head 0 previous _).cursor_bounds hmem).2
    rw [length_commitChanges] at hbound
    simp [hbound, (mem_commitChanges hmem).2]

/-- A valid transaction that has read the head of a log is previewed exactly if there are cursors
left for its mutations, and the preview is the graph that its commit leaves. -/
theorem preview_predicts_commit (digest : DataTransaction → {value : String // IsHex value})
    {transaction : DataTransaction} (hvalid : transaction.validate digests floats = .ok ())
    {log : List RuntimeChange}
    (hhead : ∀ change ∈ log, change.cursor ≤ transaction.read.commitCursor) (validAt : Nat)
    (previous : Option String) :
    let head := transaction.read.commitCursor
    let scope := transaction.read.scope
    let commit := transaction.commit
    let result := transaction.preview digests floats digest (.fromChanges log scope validAt head)
    let committed := RuntimeGraphSnapshot.fromChanges
      (log ++ commitChanges digests commit head 0 previous commit.mutations) scope validAt
      (head + commit.mutations.length)
    ((∃ view, result = .ok view) ↔ head + commit.mutations.length ≤ u64Max) ∧
    ∀ view, result = .ok view →
      view.records = committed.records ∧ view.relations = committed.relations := by
  intro head scope commit result committed
  have hscope : scope = commit.scope := (DataTransaction.validate_eq_ok.mp hvalid).2.2.2.1
  have hok : ∀ view, result = .ok view ↔ _ := fun view => DataTransaction.preview_eq_ok hvalid
  have hafter : GraphMaps.ofChanges validAt (visibleChanges (log ++ commitChanges digests commit head
        0 previous commit.mutations) scope (head + commit.mutations.length)) =
      (GraphMaps.ofChanges validAt (visibleChanges log scope head)).placePending validAt head
        commit.at_ commit.mutations.zipIdx := by
    rw [hscope, visibleChanges_commit hhead, GraphMaps.ofChanges, List.foldl_append]
    exact foldl_commitChanges validAt head 0 0 previous commit.mutations _
  refine ⟨⟨fun ⟨view, h⟩ => ((hok view).mp h).2.2.1, fun hle => ?_⟩, fun view h => ?_⟩
  · exact ⟨_, (hok _).mpr ⟨rfl, rfl, hle, rfl⟩⟩
  · obtain ⟨-, -, -, rfl⟩ := (hok view).mp h
    simp only [DataTransaction.viewOver, committed, RuntimeGraphSnapshot.fromChanges, hafter,
      (GraphMaps.keyed_ofChanges ..).table_shown]
    simp only [GraphMaps.recordsAt_eq, GraphMaps.relationsAt_eq, GraphMaps.shown_placePending]
    exact ⟨rfl, rfl⟩

def linked : List RuntimeChange :=
  commitChanges Externals.numbered.digests (proposal 0 [.record node, .relation link]) 0 0 none
    [.record node, .relation link]

/-- The retirement of the edge, made from the state after it. -/
def retiringLink : DataTransaction :=
  let read : ReadStamp :=
    { contractVersion := 1, scope := tenant, schemaRevision := none, catalogRevision := 0
      commitCursor := 2, headDigest := lastDigestOf none linked, accumulatorRoot := none
      manifestId := "" }
  { contractVersion := 1, commit := proposal 2 [retireLink 50]
    read := { read with manifestId := Externals.numbered.digests.stamp read } }

theorem preview_predicts_commit_retired :
    let digests := Externals.numbered.digests
    (RuntimeGraphSnapshot.fromChanges linked tenant 60 2).relations = [link] ∧
    ∃ view, retiringLink.preview digests Externals.numbered.floats
        (fun transaction => ⟨_, digests.commit_hex transaction.commit⟩)
        (.fromChanges linked tenant 60 2) = .ok view ∧ view.relations = [] := by
  intro digests
  have hvalid : retiringLink.validate digests Externals.numbered.floats = .ok () := by
    decide +kernel
  obtain ⟨hok, hgraph⟩ := preview_predicts_commit
    (fun transaction => ⟨_, digests.commit_hex transaction.commit⟩) hvalid
    (by decide +kernel : ∀ change ∈ linked, change.cursor ≤ 2) 60 none
  obtain ⟨view, hview⟩ := hok.mpr (by decide)
  refine ⟨by decide +kernel, view, hview, (hgraph view hview).2.trans ?_⟩
  decide +kernel

end Rrflow.Store

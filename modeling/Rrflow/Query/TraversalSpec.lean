import Rrflow.Query.Traversal

/-!
The rows of a traversal are the nodes within its depth.

The graph of a traversal is made of the relations of its kind that are in force at the
instant of the read as of its cursor. A traversal of a log has one row for every node
whose distance in this graph lies within the depth, the nearer nodes first.
-/

namespace Rrflow.Query

open Kernel Store List SortedMap

variable {relation : RuntimeRelation} {reference near : RuntimeRef} {change : RuntimeChange}

/-- Lists that are gathered by key come in the order in which they were given. -/
theorem getD_find?_foldl_push {κ β : Type*} [LinearOrder κ] {k : κ} {p : κ × β → Bool}
    (hp : ∀ x, p x = true ↔ x.1 = k) (l : List (κ × β)) (m : SortedMap κ (List β)) :
    ((l.foldl (fun m x => m.push x.1 x.2) m).find? k).getD [] =
      (m.find? k).getD [] ++ (l.filter p).map Prod.snd := by
  induction l generalizing m with
  | nil => simp
  | cons x rest ih =>
    rw [foldl_cons, ih, push, find?_insert]
    by_cases hx : x.1 = k
    · rw [filter_cons_of_pos ((hp x).mpr hx)]
      subst hx
      simp
    · rw [filter_cons_of_neg (mt (hp x).mp hx), if_neg (Ne.symm hx)]

/-- A relation joins a node to another one in a direction. -/
def TraversalDirection.Joins (direction : TraversalDirection) (relation : RuntimeRelation)
    (near far : RuntimeRef) : Prop :=
  match direction with
  | .outgoing => relation.from_ = near ∧ relation.to_ = far
  | .incoming => relation.to_ = near ∧ relation.from_ = far
  | .both => relation.from_ = near ∧ relation.to_ = far ∨ relation.to_ = near ∧ relation.from_ = far

theorem successor_eq_some_iff {far : RuntimeRef} {direction : TraversalDirection} :
    successor relation near direction = some far ↔ direction.Joins relation near far := by
  unfold successor TraversalDirection.Joins
  cases direction with
  | outgoing | incoming => simp
  | both =>
    by_cases hfrom : relation.from_ = near
    · subst hfrom
      simp only [if_true, Option.some.injEq, true_and]
      refine ⟨.inl, ?_⟩
      rintro (h | ⟨hto, hfrom⟩)
      · exact h
      · rw [hto, hfrom]
    · simp [hfrom]

/-- A traversal meets a relation once at each node from which it crosses it. -/
theorem filter_endpoints (direction : TraversalDirection) (relation : RuntimeRelation)
    (node : RuntimeRef) :
    (((endpoints direction relation).map fun endpoint => (endpoint, relation)).filter
      (·.1 = node)).map Prod.snd =
      if (successor relation node direction).isSome then [relation] else [] := by
  unfold endpoints successor
  cases direction with
  | outgoing => by_cases hfrom : relation.from_ = node <;> simp [hfrom]
  | incoming => by_cases hto : relation.to_ = node <;> simp [hto]
  | both =>
    by_cases hsame : relation.from_ = relation.to_
    · by_cases hto : relation.to_ = node <;> simp [hsame, hto]
    · by_cases hfrom : relation.from_ = node
      · have hto : relation.to_ ≠ node := fun hto => hsame (hfrom.trans hto.symm)
        simp [hfrom, hto, Ne.symm hto]
      · by_cases hto : relation.to_ = node <;> simp [hsame, hfrom, hto]

variable (relations : SortedMap RuntimeRef RuntimeRelation)

theorem incident_eq (kind : RuntimeType) (direction : TraversalDirection) (node : RuntimeRef) :
    ((incidentRelations relations kind direction).find? node).getD [] =
      relations.values.filter fun relation =>
        relation.reference.kind = kind && (successor relation node direction).isSome := by
  rw [incidentRelations, getD_find?_foldl_push (p := (·.1 = node)) (by simp),
    find?_empty, Option.getD_none, nil_append]
  generalize relations.values = values
  induction values with
  | nil => rfl
  | cons relation rest ih =>
    by_cases hkind : relation.reference.kind = kind
    · rw [filter_cons_of_pos (by simpa using hkind), flatMap_cons, filter_append,
        map_append, filter_endpoints, filter_cons]
      split
      · next hsome => simpa [hkind, hsome] using ih
      · next hnone => simpa [hkind, hnone] using ih
    · rw [filter_cons_of_neg (by simpa using hkind), ih, filter_cons_of_neg (by simp [hkind])]

theorem mem_edgesOf {relations : SortedMap RuntimeRef RuntimeRelation} {kind : RuntimeType}
    {direction : TraversalDirection} {edge : RuntimeRelation × RuntimeRef} :
    edge ∈ edgesOf (incidentRelations relations kind direction) direction near ↔
      edge.1 ∈ relations.values ∧ edge.1.reference.kind = kind ∧
        direction.Joins edge.1 near edge.2 := by
  rw [edgesOf, incident_eq]
  simp only [mem_filterMap, mem_filter, Bool.and_eq_true, decide_eq_true_eq,
    Option.map_eq_some_iff, ← successor_eq_some_iff]
  constructor
  · rintro ⟨relation, ⟨hmem, hkind, -⟩, next, hnext, rfl⟩
    exact ⟨hmem, hkind, hnext⟩
  · rintro ⟨hmem, hkind, hnext⟩
    exact ⟨edge.1, ⟨hmem, hkind, by simp [hnext]⟩, edge.2, hnext, rfl⟩

/-! ### What is active -/

/-- A version of an identity that is in force at an instant as of a cursor: its window
is open, and no version that is in effect has a greater cursor. -/
def InForceAt (changes : List RuntimeChange) (scope : ScopeId) (validAt knownAtCursor : Nat)
    (family : RuntimeMutationFamily) (reference : RuntimeRef) (mutation : RuntimeMutation) : Prop :=
  ∃ change ∈ versionsIn changes scope knownAtCursor family reference validAt,
    change.mutation = mutation ∧ mutation.retirement? = none ∧ mutation.openAt validAt = true ∧
    ∀ other ∈ versionsIn changes scope knownAtCursor family reference validAt,
      other.cursor ≤ change.cursor

variable {changes : List RuntimeChange} {scope : ScopeId} {validAt knownAtCursor : Nat}

section

variable (hlog : changes.Pairwise fun a b => a.cursor < b.cursor)

include hlog

theorem eq_of_cursor_eq : ∀ a ∈ changes, ∀ b ∈ changes, a.cursor = b.cursor → a = b := by
  intro a ha b hb heq
  have hnodup : (changes.map (·.cursor)).Nodup :=
    pairwise_map.mpr (hlog.imp fun hlt => hlt.ne)
  exact inj_on_of_nodup_map hnodup ha hb heq

/-- The version that counts is the one of greatest cursor. -/
theorem winner_eq_some_iff {family : RuntimeMutationFamily} :
    winner changes scope knownAtCursor family reference validAt = some change ↔
      change ∈ versionsIn changes scope knownAtCursor family reference validAt ∧
        ∀ other ∈ versionsIn changes scope knownAtCursor family reference validAt,
          other.cursor ≤ change.cursor := by
  have hlatest := Latest.isLatest_latest (·.cursor) knownAtCursor
    (versionsIn changes scope knownAtCursor family reference validAt)
  constructor
  · intro h
    rw [winner] at h
    rw [h] at hlatest
    exact ⟨hlatest.1, fun other hmem => hlatest.2.2 other hmem (mem_versionsIn.mp hmem).2.1.1⟩
  · rintro ⟨hmem, hnewest⟩
    refine hlatest.unique_of_inj ?_ ⟨hmem, (mem_versionsIn.mp hmem).2.1.1, fun w hw _ => hnewest w hw⟩
    intro a ha b hb
    exact eq_of_cursor_eq hlog a (mem_versionsIn.mp ha).1 b (mem_versionsIn.mp hb).1

theorem inForceAt_iff {family : RuntimeMutationFamily} {mutation : RuntimeMutation} :
    InForceAt changes scope validAt knownAtCursor family reference mutation ↔
      ∃ change, winner changes scope knownAtCursor family reference validAt = some change ∧
        change.mutation = mutation ∧ mutation.retirement? = none ∧
        mutation.openAt validAt = true := by
  simp only [InForceAt, winner_eq_some_iff hlog]
  constructor
  · rintro ⟨change, hmem, heq, hput, hopen, hnewest⟩
    exact ⟨change, ⟨hmem, hnewest⟩, heq, hput, hopen⟩
  · rintro ⟨change, ⟨hmem, hnewest⟩, heq, hput, hopen⟩
    exact ⟨change, hmem, heq, hput, hopen, hnewest⟩

end

theorem recordAt_eq_some {record : RuntimeRecord} :
    GraphState.recordAt validAt change = some record ↔
      change.mutation = .record record ∧ (RuntimeMutation.record record).openAt validAt = true := by
  unfold GraphState.recordAt
  cases change.mutation <;>
    simp [RuntimeMutation.record?, RuntimeMutation.openAt, Option.filter_eq_some_iff]

theorem relationAt_eq_some :
    GraphState.relationAt validAt change = some relation ↔
      change.mutation = .relation relation ∧
        (RuntimeMutation.relation relation).openAt validAt = true := by
  unfold GraphState.relationAt
  cases change.mutation <;>
    simp [RuntimeMutation.relation?, RuntimeMutation.openAt, Option.filter_eq_some_iff]

theorem find?_activeRecords_iff (hlog : changes.Pairwise fun a b => a.cursor < b.cursor)
    {record : RuntimeRecord} :
    (activeGraphValues changes scope validAt knownAtCursor).1.find? reference = some record ↔
      InForceAt changes scope validAt knownAtCursor .record reference (.record record) := by
  rw [find?_activeRecords, Option.bind_eq_some_iff, inForceAt_iff hlog]
  simp only [recordAt_eq_some, RuntimeMutation.retirement?, true_and]

theorem find?_activeRelations_iff (hlog : changes.Pairwise fun a b => a.cursor < b.cursor) :
    (activeGraphValues changes scope validAt knownAtCursor).2.find? reference = some relation ↔
      InForceAt changes scope validAt knownAtCursor .relation reference (.relation relation) := by
  rw [find?_activeRelations, Option.bind_eq_some_iff, inForceAt_iff hlog]
  simp only [relationAt_eq_some, RuntimeMutation.retirement?, true_and]

/-- The relations of the graph at an instant as of a cursor. -/
def ActiveRelation (changes : List RuntimeChange) (scope : ScopeId) (validAt knownAtCursor : Nat)
    (relation : RuntimeRelation) : Prop :=
  InForceAt changes scope validAt knownAtCursor .relation relation.reference (.relation relation)

def ActiveRecord (changes : List RuntimeChange) (scope : ScopeId) (validAt knownAtCursor : Nat)
    (reference : RuntimeRef) : Prop :=
  ∃ record, InForceAt changes scope validAt knownAtCursor .record reference (.record record)

/-- The edges of a traversal: the active relations of its kind in its direction. -/
def TraversalEdge (changes : List RuntimeChange) (scope : ScopeId) (validAt knownAtCursor : Nat)
    (plan : TraversalPlan) (near far : RuntimeRef) : Prop :=
  ∃ relation, ActiveRelation changes scope validAt knownAtCursor relation ∧
    relation.reference.kind = plan.relation ∧ plan.direction.Joins relation near far

theorem mem_activeRelations_iff (hlog : changes.Pairwise fun a b => a.cursor < b.cursor) :
    relation ∈ (activeGraphValues changes scope validAt knownAtCursor).2.values ↔
      ActiveRelation changes scope validAt knownAtCursor relation := by
  simp only [values, mem_map, Prod.exists, mem_toList_iff,
    exists_eq_right, find?_activeRelations_iff hlog]
  constructor
  · rintro ⟨reference, h⟩
    obtain ⟨change, hmem, heq, hrest⟩ := h
    have htarget := (mem_versionsIn.mp hmem).2.2.1
    simp only [RuntimeChange.target, heq, Option.some.injEq, Prod.mk.injEq, true_and] at htarget
    rw [ActiveRelation, htarget]
    exact ⟨change, hmem, heq, hrest⟩
  · exact fun h => ⟨_, h⟩

theorem step_edgesOf_iff (hlog : changes.Pairwise fun a b => a.cursor < b.cursor)
    {plan : TraversalPlan} {far : RuntimeRef} :
    Breadth.Step (edgesOf (incidentRelations
      (activeGraphValues changes scope validAt knownAtCursor).2 plan.relation plan.direction)
        plan.direction) near far ↔
      TraversalEdge changes scope validAt knownAtCursor plan near far := by
  simp only [Breadth.Step, mem_edgesOf, mem_activeRelations_iff hlog, TraversalEdge]
  constructor
  · rintro ⟨edge, h, rfl⟩
    exact ⟨edge.1, h⟩
  · rintro ⟨relation, h⟩
    exact ⟨(relation, far), h, rfl⟩

theorem queue_traversalSearch (plan : TraversalPlan) :
    (traversalSearch relations plan).queue = [] := by
  let nodes := (relations.values.flatMap fun relation => [relation.from_, relation.to_]).toFinset
  have hnodes : ∀ near, ∀ edge ∈ edgesOf (incidentRelations relations plan.relation
      plan.direction) plan.direction near, edge.2 ∈ nodes := by
    intro near edge hmem
    obtain ⟨hvalue, -, hjoins⟩ := mem_edgesOf.mp hmem
    rw [mem_toFinset, mem_flatMap]
    refine ⟨edge.1, hvalue, ?_⟩
    unfold TraversalDirection.Joins at hjoins
    cases plan.direction <;> grind
  have hcard : nodes.card ≤ 2 * relations.values.length := by
    refine (toFinset_card_le _).trans ?_
    simp [length_flatMap, mul_comm]
  exact Breadth.queue_rounds_eq_nil hnodes
    ((Breadth.potential_init_le nodes plan.start).trans (Nat.succ_le_succ hcard))

theorem sound_traversalSearch (plan : TraversalPlan) :
    Breadth.Sound (edgesOf (incidentRelations relations plan.relation plan.direction)
      plan.direction) plan.start plan.maxDepth (traversalSearch relations plan) :=
  (Breadth.Sound.init ..).rounds _

/-! ### Exact reachability -/

/-- The rows of a traversal are those of some hops. The hops lead to every node within
the depth once, at its distance, along a path of the graph. -/
structure ExactHops (edge : RuntimeRef → RuntimeRef → Prop) (plan : TraversalPlan)
    (hops : List (Breadth.Hop RuntimeRef RuntimeRelation)) : Prop where
  sound : ∀ hop ∈ hops, hop.far.node ≠ plan.start ∧
    Breadth.AtDistance edge plan.start hop.far.depth hop.far.node ∧
    1 ≤ hop.far.depth ∧ hop.far.depth ≤ plan.maxDepth
  path : ∀ hop ∈ hops, hop.far.path.head? = some plan.start ∧
    hop.far.path.getLast? = some hop.far.node ∧ hop.far.path.length = hop.far.depth + 1 ∧
    hop.far.path.IsChain edge
  relation : ∀ hop ∈ hops, hop.edge.reference.kind = plan.relation ∧
    plan.direction.Joins hop.edge hop.near.node hop.far.node
  complete : ∀ d node, 1 ≤ d → d ≤ plan.maxDepth → Breadth.AtDistance edge plan.start d node →
    ∃ hop ∈ hops, hop.far.node = node ∧ hop.far.depth = d
  once : (hops.map (·.far.node)).Nodup
  ordered : hops.Pairwise fun a b => a.far.depth ≤ b.far.depth

theorem traversal_rows_exact (changes : List RuntimeChange)
    (hlog : changes.Pairwise fun a b => a.cursor < b.cursor) (scope : ScopeId)
    (plan : TraversalPlan) (validAt knownAtCursor : Nat) :
    (ActiveRecord changes scope validAt knownAtCursor plan.start →
      ∃ hops, traversalRows changes scope plan validAt knownAtCursor =
          hops.map (traversalRow plan.relation plan.start) ∧
        ExactHops (TraversalEdge changes scope validAt knownAtCursor plan) plan hops) ∧
    (¬ ActiveRecord changes scope validAt knownAtCursor plan.start →
      traversalRows changes scope plan validAt knownAtCursor = []) := by
  have hstart : (activeGraphValues changes scope validAt knownAtCursor).1.contains plan.start =
      true ↔ ActiveRecord changes scope validAt knownAtCursor plan.start := by
    rw [SortedMap.contains, Option.isSome_iff_exists, ActiveRecord]
    simp only [find?_activeRecords_iff hlog]
  refine ⟨fun hactive => ⟨_, if_pos (hstart.mpr hactive), ?_⟩,
    fun hinactive => if_neg (mt hstart.mp hinactive)⟩
  set relations := (activeGraphValues changes scope validAt knownAtCursor).2
  have hsound := sound_traversalSearch relations plan
  have hstep : Breadth.Step (edgesOf (incidentRelations relations plan.relation plan.direction)
      plan.direction) = TraversalEdge changes scope validAt knownAtCursor plan := by
    funext near far
    exact propext (step_edgesOf_iff hlog)
  have hfar : ∀ hop ∈ (traversalSearch relations plan).found,
      Breadth.Known plan.start (traversalSearch relations plan).found hop.far :=
    fun hop hmem => .inr ⟨hop, hmem, rfl⟩
  constructor
  · intro hop hmem
    obtain ⟨hdist, hmax, -⟩ := hsound.exact _ (hfar hop hmem)
    obtain ⟨-, -, hnext⟩ := hsound.hop hop hmem
    rw [hstep] at hdist
    refine ⟨?_, hdist, by rw [hnext]; exact Nat.succ_pos _, hmax⟩
    rintro heq
    exact (nodup_cons.mp hsound.nodup).1 (heq ▸ mem_map_of_mem hmem)
  · intro hop hmem
    obtain ⟨-, -, hleads⟩ := hsound.exact _ (hfar hop hmem)
    exact ⟨hleads.head, hleads.last, hleads.length, hstep ▸ hleads.chain⟩
  · intro hop hmem
    obtain ⟨-, hedge, -⟩ := hsound.hop hop hmem
    exact (mem_edgesOf.mp hedge).2
  · intro d node hpos hmax hdist
    exact hsound.complete (queue_traversalSearch relations plan) (hstep ▸ hdist) hpos hmax
  · exact (nodup_cons.mp hsound.nodup).2
  · exact hsound.sorted

/-! A node with two ways to another one, a relation that moved and one that was
retired. -/

def walkScope : ScopeId := ⟨"tenant", by decide⟩

def walkNode (id : RuntimeId) : RuntimeRef := .of ⟨"node", by decide⟩ id

def walkChange (cursor : Nat) (mutation : RuntimeMutation) : RuntimeChange :=
  { cursor, commitId := "", commitOrdinal := 0, scope := walkScope, at_ := 1, actor := "writer"
    mutation, previousDigest := none, digest := "" }

def walkRelation (id : RuntimeId) (from_ to_ : RuntimeRef) : RuntimeMutation :=
  .relation { reference := .of ⟨"link", by decide⟩ id, from_, to_, validFrom := 1, validTo := none
              properties := .empty }

def walkLog : List RuntimeChange :=
  let a := walkNode ⟨"a", .inl (by decide)⟩
  let b := walkNode ⟨"b", .inl (by decide)⟩
  let c := walkNode ⟨"c", .inl (by decide)⟩
  [walkChange 1 (.record { reference := a, validFrom := 1, validTo := none, properties := .empty }),
    walkChange 2 (walkRelation ⟨"r1", .inl (by decide)⟩ a c),
    walkChange 3 (walkRelation ⟨"r1", .inl (by decide)⟩ a b),
    walkChange 4 (walkRelation ⟨"r2", .inl (by decide)⟩ b c),
    walkChange 5 (walkRelation ⟨"r3", .inl (by decide)⟩ c a),
    walkChange 6 (walkRelation ⟨"r4", .inl (by decide)⟩ a c),
    walkChange 7 (.retire { model := .graphRelation
                            reference := .of ⟨"link", by decide⟩ ⟨"r4", .inl (by decide)⟩
                            effectiveAt := 2 })]

def walkPlan : TraversalPlan :=
  { relation := ⟨"link", by decide⟩, start := walkNode ⟨"a", .inl (by decide)⟩
    direction := .outgoing, maxDepth := 2 }

theorem walkLog_pairwise : walkLog.Pairwise fun a b => a.cursor < b.cursor := by decide +kernel

theorem traversal_rows_exact_cycle :
    ActiveRecord walkLog walkScope 5 7 walkPlan.start ∧
      ∃ hops, traversalRows walkLog walkScope walkPlan 5 7 =
          hops.map (traversalRow walkPlan.relation walkPlan.start) ∧
        ExactHops (TraversalEdge walkLog walkScope 5 7 walkPlan) walkPlan hops := by
  have hactive : ActiveRecord walkLog walkScope 5 7 walkPlan.start := by
    have hfound : ((activeGraphValues walkLog walkScope 5 7).1.find? walkPlan.start).isSome := by
      decide +kernel
    obtain ⟨record, hrecord⟩ := Option.isSome_iff_exists.mp hfound
    exact ⟨record, (find?_activeRecords_iff walkLog_pairwise).mp hrecord⟩
  exact ⟨hactive, (traversal_rows_exact walkLog walkLog_pairwise walkScope walkPlan 5 7).1 hactive⟩

/-- Of the two nodes the nearer one comes first. -/
example : (traversalRows walkLog walkScope walkPlan 5 7).map (·.identity) =
    ["traversal:link:node:a:1:r1:node:b", "traversal:link:node:a:2:r2:node:c"] := by
  decide +kernel

end Rrflow.Query

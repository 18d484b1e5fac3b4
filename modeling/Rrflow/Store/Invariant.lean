import Rrflow.Store.CommitSpec

/-!
The log is whole in every reachable state.

Only semantic commits write the runtime keyspaces, and they do it by placing their
changes. So the logged keyspaces are always the replay of the stored change log, whose
cursors are consecutive and whose digests form one chain.
-/

namespace Rrflow.Store

open Kernel Checks List

variable {externals : Externals}

variable {state : State} {digests : Digests} {log : List RuntimeChange} {cursor : Nat}
  {previous : Option String} {change : RuntimeChange} {commit : RuntimeCommit} {writes : List Write}
  {floats : Floats}

section

variable (h : Chain digests cursor previous log)

include h

theorem Chain.cursor_bounds (hmem : change ∈ log) :
    cursor < change.cursor ∧ change.cursor ≤ cursor + log.length := by
  induction log generalizing cursor previous with
  | nil => cases hmem
  | cons first rest ih =>
    rw [length_cons]
    rcases mem_cons.mp hmem with rfl | hmem
    · have := h.1.1
      omega
    · have := ih h.2 hmem
      omega

theorem Chain.verifyDigest (hmem : change ∈ log) : change.verifyDigest digests = true := by
  induction log generalizing cursor previous with
  | nil => cases hmem
  | cons first rest ih =>
    rcases mem_cons.mp hmem with rfl | hmem
    · exact h.1.2.2
    · exact ih h.2 hmem

theorem Chain.getElem?_cursor (hmem : change ∈ log) :
    log[change.cursor - cursor - 1]? = some change := by
  induction log generalizing cursor previous with
  | nil => cases hmem
  | cons first rest ih =>
    rcases mem_cons.mp hmem with rfl | hmem
    · simp [h.1.1]
    · have hbounds := h.2.cursor_bounds hmem
      have hindex : change.cursor - cursor - 1 = change.cursor - (cursor + 1) - 1 + 1 := by omega
      rw [hindex, getElem?_cons_succ]
      exact ih h.2 hmem

theorem Chain.pairwise : log.Pairwise fun a b => a.cursor < b.cursor := by
  induction log generalizing cursor previous with
  | nil => exact .nil
  | cons first rest ih =>
    refine .cons ?_ (ih h.2)
    intro change hmem
    have hfirst := h.1.1
    have hbounds := h.2.cursor_bounds hmem
    omega

theorem Chain.eq_of_cursor_eq {a b : RuntimeChange} (ha : a ∈ log) (hb : b ∈ log)
    (heq : a.cursor = b.cursor) : a = b := by
  have hfound := h.getElem?_cursor ha
  rw [heq, h.getElem?_cursor hb] at hfound
  exact (Option.some.inj hfound).symm

end

theorem toList_changes_replay (h : Chain digests 0 none log) :
    (replay log).changes.toList = log.map fun change => (change.cursor, change) := by
  induction log using List.reverseRecOn with
  | nil => rfl
  | append_singleton log change ih =>
    obtain ⟨hlog, hchange⟩ := chain_append.mp h
    rw [replay_append, foldl_cons, foldl_nil, LogSpaces.changes_place,
      SortedMap.toList_insert_of_forall_lt, ih hlog, map_append]
    · rfl
    · intro x hx
      rw [ih hlog, mem_map] at hx
      obtain ⟨other, hmem, rfl⟩ := hx
      have hother := hlog.cursor_bounds hmem
      have hcursor := hchange.1.1
      show other.cursor < change.cursor
      omega

theorem values_changes_replay (h : Chain digests 0 none log) :
    (replay log).changes.values = log := by
  rw [SortedMap.values, toList_changes_replay h, map_map]
  exact map_id log

/-! ### Reachable states -/

/-- The runtime keyspaces of a state are those of its log. -/
structure Whole (externals : Externals) (state : State) : Prop where
  chain : Chain externals.digests 0 none state.log
  logged : state.logged = replay state.log
  cursor : state.cursor = state.log.length
  bound : state.cursor ≤ u64Max
  digest : state.headDigest = lastDigestOf none state.log
  accumulator : storedLog state = ⟨state.log⟩
  stored : state.accumulator = none → state.log = []

/-- The digest of a chain is not empty, so it is read back as it was written. -/
theorem filter_lastDigestOf (h : Chain digests cursor previous log) (hne : log ≠ []) :
    (some ((lastDigestOf previous log).getD "")).filter (· ≠ "") = lastDigestOf previous log := by
  obtain ⟨last, hlast⟩ := Option.isSome_iff_exists.mp (getLast?_isSome.mpr hne)
  have hdigest : lastDigestOf previous log = some last.digest := by simp [lastDigestOf, hlast]
  have hhex := RuntimeChange.isHex_digest (h.verifyDigest (mem_of_getLast? hlast))
  rw [hdigest]
  simp [hhex.ne_empty]

theorem Whole.empty : Whole externals State.empty where
  chain := trivial
  logged := rfl
  cursor := rfl
  bound := Nat.zero_le _
  digest := rfl
  accumulator := rfl
  stored := fun _ => rfl

/-- Nothing but the claims and the control records differs. -/
theorem Whole.of_same_runtime {state' : State} (h : Whole externals state)
    (hlogged : state'.logged = state.logged) (hcursor : state'.cursor = state.cursor)
    (hdigest : state'.lastDigest = state.lastDigest)
    (haccumulator : state'.accumulator = state.accumulator) : Whole externals state' := by
  have hlog : state'.log = state.log := by rw [State.log, hlogged, State.log]
  refine ⟨?_, ?_, ?_, ?_, ?_, ?_, ?_⟩
  · exact hlog ▸ h.chain
  · rw [hlogged, hlog, ← h.logged]
  · rw [hcursor, hlog, h.cursor]
  · exact hcursor ▸ h.bound
  · rw [State.headDigest, hdigest, hlog]
    exact h.digest
  · rw [storedLog, haccumulator, hlog]
    exact h.accumulator
  · rw [haccumulator, hlog]
    exact h.stored

theorem Whole.currentAccumulator (h : Whole externals state) :
    currentAccumulator state state.cursor = .ok ⟨state.log⟩ := by
  have hstored := h.accumulator
  unfold Store.currentAccumulator loadAccumulator
  cases haccumulator : state.accumulator with
  | none =>
    have hnil := h.stored haccumulator
    have hcursor := h.cursor
    rw [hnil] at hcursor ⊢
    simp only [hcursor]
    rfl
  | some accumulator =>
    obtain rfl : accumulator = ⟨state.log⟩ := by simpa [storedLog, haccumulator] using hstored
    simp [LogLeaves.treeSize, h.cursor, ensure, bind, Except.bind, pure, Except.pure]

theorem Accepted.log_eq {outcome : RuntimeCommitOutcome} {accumulator : LogLeaves}
    {schema : Option RuntimeSchemaRegistry} {audit : AuditEnvelope} {indexWrites : List IndexWrite}
    (h : Accepted externals state commit outcome writes accumulator schema audit indexWrites)
    (hwhole : Whole externals state) :
    (state.applyAll writes).log = state.log ++ state.changesOf externals commit ∧
    Whole externals (state.applyAll writes) := by
  have hchanges : Chain externals.digests (0 + state.log.length) (lastDigestOf none state.log)
      (state.changesOf externals commit) := by
    rw [Nat.zero_add, ← hwhole.cursor, ← hwhole.digest]
    exact chain_commitChanges ..
  have hchain : Chain externals.digests 0 none (state.log ++ state.changesOf externals commit) :=
    chain_append.mpr ⟨hwhole.chain, hchanges⟩
  have hlogged : (state.applyAll writes).logged =
      replay (state.log ++ state.changesOf externals commit) := by
    rw [h.effect, replay_append, ← hwhole.logged]
  have hlog : (state.applyAll writes).log = state.log ++ state.changesOf externals commit := by
    rw [State.log, hlogged, values_changes_replay hchain]
  have hlength : (state.changesOf externals commit).length = commit.mutations.length :=
    length_commitChanges ..
  have hne : state.changesOf externals commit ≠ [] := by
    intro hnil
    exact RuntimeCommit.mutations_ne_nil h.valid (eq_nil_of_length_eq_zero (hlength ▸ hnil ▸ rfl))
  have haccumulator : accumulator = ⟨state.log⟩ :=
    Except.ok.inj (h.log.symm.trans hwhole.currentAccumulator)
  refine ⟨hlog, ?_, ?_, ?_, ?_, ?_, ?_, ?_⟩
  · exact hlog ▸ hchain
  · rw [hlogged, hlog]
  · rw [hlog, length_append, hlength, ← hwhole.cursor, h.effect]
  · rw [h.effect]
    exact h.bound
  · rw [hlog, lastDigestOf_append, ← hwhole.digest, State.headDigest, h.effect]
    exact filter_lastDigestOf (chain_commitChanges ..) hne
  · rw [hlog, storedLog, h.effect, haccumulator]
    rfl
  · rw [h.effect]
    intro hnone
    cases hnone

theorem ControlSpaces.catalogRevisions_applyAll_index (spaces : ControlSpaces)
    (writes : List IndexWrite) :
    (spaces.applyAll (writes.map fun write => .index write.1 write.2)).catalogRevisions =
      spaces.catalogRevisions := by
  induction writes generalizing spaces with
  | nil => rfl
  | cons write rest ih => exact ih _

theorem Accepted.catalogRevision {outcome : RuntimeCommitOutcome}
    {accumulator : LogLeaves} {schema : Option RuntimeSchemaRegistry}
    {audit : AuditEnvelope} {indexWrites : List IndexWrite}
    (h : Accepted externals state commit outcome writes accumulator schema audit indexWrites)
    (scope : ScopeId) :
    (state.applyAll writes).catalogRevision scope = state.catalogRevision scope := by
  rw [State.catalogRevision, h.effect]
  simp only [ControlSpaces.apply, ControlSpaces.catalogRevisions_applyAll_index,
    SortedMap.find?_insert]
  split
  · rename_i heq
    rw [heq]
    rfl
  · rfl

/-- A request is a commit, with control records behind it, or leaves the runtime
keyspaces alone. -/
theorem Request.prepare_cases {request : Request}
    (h : request.prepare externals state = .ok writes) :
    (∃ commit read audit outcome prepared, ∃ more : List ControlWrite,
      prepareSemanticCommit externals state commit read audit = .ok (outcome, prepared) ∧
      writes = prepared ++ more.map .control) ∨
    (∃ more : List ClaimWrite, writes = more.map .claim) ∨
    ∃ more : List ControlWrite, writes = more.map .control := by
  cases Request.prepared h with
  | commit hprepare => exact .inl ⟨_, _, _, _, _, [], hprepare, (append_nil _).symm⟩
  | append | appendIdempotent => exact .inr (.inl ⟨_, rfl⟩)
  | control | controlBatch => exact .inr (.inr ⟨_, rfl⟩)
  | commitWithControl hprepare => exact .inl ⟨_, none, none, _, _, _, hprepare, rfl⟩

/-- What is kept by every accepted commit and does not look at the claim log or the control
records is kept by every request. -/
theorem Request.prepare_keeps {P : State → Prop} {request : Request}
    (hprepare : request.prepare externals state = .ok writes)
    (hclaims : ∀ state claims, P state → P { state with claims })
    (hcontrol : ∀ state control, P state → P { state with control })
    (hcommit : ∀ {commit outcome prepared accumulator schema audit indexWrites},
      Accepted externals state commit outcome prepared accumulator schema audit indexWrites →
      P state → P (state.applyAll prepared)) (hp : P state) : P (state.applyAll writes) := by
  rcases Request.prepare_cases hprepare with ⟨commit, read, audit, outcome, prepared, more,
    hcommitted, rfl⟩ | ⟨more, rfl⟩ | ⟨more, rfl⟩
  · obtain ⟨accumulator, schema, audit, indexWrites, haccepted⟩ :=
      prepareSemanticCommit_eq_ok hcommitted
    rw [State.applyAll_append, State.applyAll_map_control]
    exact hcontrol _ _ (hcommit haccepted hp)
  · rw [State.applyAll_map_claim]
    exact hclaims _ _ hp
  · rw [State.applyAll_map_control]
    exact hcontrol _ _ hp

theorem Whole.step {state : State} {request : Request} {writes : List Write}
    (h : Whole externals state) (hprepare : request.prepare externals state = .ok writes) :
    Whole externals (state.applyAll writes) :=
  Request.prepare_keeps hprepare (fun _ _ hw => hw.of_same_runtime rfl rfl rfl rfl)
    (fun _ _ hw => hw.of_same_runtime rfl rfl rfl rfl) (fun haccepted _ => (haccepted.log_eq h).2) h

/-- What holds of the empty store, is kept by every accepted commit and does not look at
the claim log or the control records holds of every state. -/
theorem Reachable.commit_induction {P : State → Prop} (h : Reachable externals state)
    (hempty : P .empty) (hclaims : ∀ state claims, P state → P { state with claims })
    (hcontrol : ∀ state control, P state → P { state with control })
    (hcommit : ∀ {state commit outcome writes accumulator schema audit indexWrites},
      Whole externals state →
      Accepted externals state commit outcome writes accumulator schema audit indexWrites →
      P state → P (state.applyAll writes)) : P state := by
  suffices Whole externals state ∧ P state from this.2
  induction h with
  | empty => exact ⟨.empty, hempty⟩
  | step _ hprepare ih =>
    exact ⟨ih.1.step hprepare, Request.prepare_keeps hprepare hclaims hcontrol (hcommit ih.1) ih.2⟩

/-- What holds of the empty log and is kept by every accepted commit holds of every
log. -/
theorem Reachable.log_induction {P : List RuntimeChange → Prop} (h : Reachable externals state)
    (hnil : P [])
    (hcommit : ∀ {state commit outcome writes accumulator schema audit indexWrites},
      Whole externals state →
      Accepted externals state commit outcome writes accumulator schema audit indexWrites →
      P state.log → P (state.log ++ state.changesOf externals commit)) : P state.log := by
  refine h.commit_induction (P := fun state => P state.log) hnil (fun _ _ => id) (fun _ _ => id) ?_
  intro state commit _ _ _ _ _ _ hwhole haccepted ih
  rw [(haccepted.log_eq hwhole).1]
  exact hcommit hwhole haccepted ih

theorem Reachable.whole (h : Reachable externals state) : Whole externals state := by
  induction h with
  | empty => exact .empty
  | step _ hprepare ih => exact ih.step hprepare

/-- A mutation that passes its own checks after some others of its commit. -/
def Checked (floats : Floats) (mutation : RuntimeMutation) : Prop :=
  ∃ seen seen', mutation.validate floats seen = .ok seen'

theorem RuntimeCommit.checked (h : commit.validate floats = .ok ()) :
    ∀ mutation ∈ commit.mutations, Checked floats mutation := by
  simp only [RuntimeCommit.validate, bind_eq_ok] at h
  obtain ⟨_, -, _, -, seen, hfold, -⟩ := h
  intro mutation hmem
  exact exists_of_foldlM_eq_ok hfold hmem

theorem Reachable.checked (h : Reachable externals state) :
    ∀ change ∈ state.log, Checked externals.floats change.mutation := by
  refine h.log_induction (P := fun log => ∀ change ∈ log, Checked externals.floats change.mutation)
    (by simp) ?_
  intro state commit _ _ _ _ _ _ _ haccepted ih change hmem
  rcases mem_append.mp hmem with hmem | hmem
  · exact ih change hmem
  · exact RuntimeCommit.checked haccepted.valid _ (mem_commitChanges hmem).1

theorem Checked.schema {registry : RuntimeSchemaRegistry} (h : Checked floats (.schema registry)) :
    registry.validate = .ok () := by
  obtain ⟨seen, seen', h⟩ := h
  simp only [RuntimeMutation.validate, bind_eq_ok] at h
  obtain ⟨_, hvalid, -⟩ := h
  exact hvalid

theorem Checked.retire {retirement : RuntimeRetirement} (h : Checked floats (.retire retirement)) :
    retirement.model ≠ .reasoningClaim := by
  obtain ⟨seen, seen', h⟩ := h
  simp only [RuntimeMutation.validate, bind_eq_ok, ensure_eq_ok] at h
  obtain ⟨_, -, _, hmodel, -⟩ := h
  exact hmodel

end Rrflow.Store

import Rrflow.Store.Assertion
import Rrflow.Store.Availability

/-!
The two ways to recall a claim.

A lookup resolves the rows of the claim table, where a claim replaces an earlier one with
the same subject, predicate, start and transaction time. A snapshot resolves the log of its
scope, where of two such claims the one with the smaller canonical bytes is kept. The two
agree exactly if that one was also written last.
-/

namespace Rrflow.Store

open Kernel Checks Overwrite List SortedMap RuntimeDataSnapshot

variable {externals : Externals}

variable {validAt maxKeys : Nat} {snapshot : RuntimeDataSnapshot}

/-- A request whose claims, if it has any, are committed in a scope. -/
def Request.OfScope (scope : ScopeId) : Request → Prop
  | .commit proposed _ _ => proposed.scope = scope
  | .commitWithControl proposed _ => proposed.scope = scope
  | .append _ | .appendIdempotent .. => False
  | .control .. | .controlBatch _ => True

/-- The states that the commits of one scope lead to, with their claims in order. -/
inductive ScopeLogs (externals : Externals) (scope : ScopeId) : List Claim → State → Prop
  | empty : ScopeLogs externals scope [] State.empty
  | step {log : List Claim} {state : State} {request : Request} {writes : List Write} :
      ScopeLogs externals scope log state → request.OfScope scope →
      request.prepare externals state = .ok writes →
      ScopeLogs externals scope (log ++ request.claims state) (state.applyAll writes)

variable {scope : ScopeId} {log : List Claim} {state : State}

theorem ScopeLogs.logs (h : ScopeLogs externals scope log state) : Logs externals log state := by
  induction h with
  | empty => exact .empty
  | step _ _ hprepare ih => exact ih.step hprepare

theorem Request.OfScope.prepare_cases {request : Request} {writes : List Write}
    (hscope : request.OfScope scope) (h : request.prepare externals state = .ok writes) :
    (∃ commit read audit outcome prepared, ∃ more : List ControlWrite, commit.scope = scope ∧
      request.claims state = commit.mutations.filterMap RuntimeMutation.claim? ∧
      prepareSemanticCommit externals state commit read audit = .ok (outcome, prepared) ∧
      writes = prepared ++ more.map .control) ∨
    (request.claims state = [] ∧ ∃ more : List ControlWrite, writes = more.map .control) := by
  cases Request.prepared h with
  | commit hprepare =>
    exact .inl ⟨_, _, _, _, _, [], hscope, rfl, hprepare, (append_nil _).symm⟩
  | append | appendIdempotent => cases hscope
  | control | controlBatch => exact .inr ⟨rfl, _, rfl⟩
  | commitWithControl hprepare =>
    exact .inl ⟨_, none, none, _, _, _, hscope, rfl, hprepare, rfl⟩

theorem filterMap_commitChanges {β : Type} (f : RuntimeMutation → Option β) (digests : Digests)
    (commit : RuntimeCommit) (cursor ordinal : Nat) (previous : Option String)
    (mutations : List RuntimeMutation) :
    (commitChanges digests commit cursor ordinal previous mutations).filterMap
      (fun change => f change.mutation) = mutations.filterMap f := by
  induction mutations generalizing cursor ordinal previous with
  | nil => rfl
  | cons mutation rest ih =>
    rw [commitChanges, filterMap_cons, filterMap_cons, ih]
    rfl

theorem ScopeLogs.log_eq (h : ScopeLogs externals scope log state) :
    (∀ change ∈ state.log, change.scope = scope) ∧
      state.log.filterMap (fun change => change.mutation.claim?) = log := by
  induction h with
  | empty =>
    refine ⟨fun change hmem => ?_, rfl⟩
    cases hmem
  | @step log state request writes hbefore hscope hprepare ih =>
    have hwhole := hbefore.logs.reachable.whole
    rcases hscope.prepare_cases hprepare with ⟨commit, read, audit, outcome, prepared, more,
      hcommit, hclaims, haccept, rfl⟩ | ⟨hclaims, more, rfl⟩
    · obtain ⟨_, _, _, _, haccepted⟩ := prepareSemanticCommit_eq_ok haccept
      have hlog : (state.applyAll (prepared ++ more.map .control)).log =
          state.log ++ state.changesOf externals commit := by
        rw [State.applyAll_append, State.applyAll_map_control]
        exact (haccepted.log_eq hwhole).1
      rw [hlog, hclaims]
      constructor
      · intro change hmem
        rcases mem_append.mp hmem with hmem | hmem
        · exact ih.1 change hmem
        · exact (mem_commitChanges hmem).2.trans hcommit
      · rw [filterMap_append, ih.2, State.changesOf, filterMap_commitChanges]
    · rw [State.applyAll_map_control, hclaims, append_nil]
      exact ih

theorem demand_of_le {change : RuntimeChange} {demand : Demand} {early late : Nat}
    (hle : early ≤ late) (h : change.demand early = some demand) :
    change.demand late = some demand := by
  unfold RuntimeChange.demand at h ⊢
  cases hmutation : change.mutation with
  | claim | schema => simp [hmutation] at h
  | _ =>
    simp only [hmutation] at h ⊢
    split at h
    · next hdue => rw [if_pos (hdue.trans hle), h]
    · cases h

/-- What can be read at an instant can be read at every earlier one. -/
theorem exists_dataSnapshot_of_le (h : Reachable externals state) {early late : Nat}
    (hle : early ≤ late) (hlate : dataSnapshot externals state scope late maxKeys = .ok snapshot) :
    ∃ snapshot, dataSnapshot externals state scope early maxKeys = .ok snapshot := by
  obtain ⟨-, hequal⟩ := h.whole.of_dataSnapshot hlate
  rw [hequal, enteredSnapshot] at hlate ⊢
  cases hschema : schemaOf state.log scope with
  | none =>
    have hclaims := h.isClaim_of_mem_enteredChanges hschema
    obtain ⟨snapshot, hsnapshot⟩ := exists_fromClaimChanges hclaims scope early state.cursor
    exact ⟨snapshot, lift_eq_ok.mpr hsnapshot⟩
  | some schema =>
    simp only [hschema, lift_eq_ok, fromChanges_eq_ok] at hlate ⊢
    obtain ⟨hvalid, hmeets, -⟩ := hlate
    refine ⟨_, hvalid, fun change hmem demand hdemand => ?_, rfl⟩
    exact hmeets change hmem demand (demand_of_le hle hdemand)

theorem Assembly.foldlM_addClaim {changes : List RuntimeChange} {assembly assembly' : Assembly}
    (h : changes.foldlM (fun assembly change =>
      match change.mutation with
      | .claim claim => .ok (assembly.addClaim claim)
      | _ => invalid ("runtime mutation at cursor " ++ toString change.cursor ++
          " requires a schema before snapshot assembly")) assembly =
        (.ok assembly' : Except Kernel.Error Assembly)) :
    assembly'.claims = (changes.filterMap fun change => change.mutation.claim?).foldl
      (fun claims claim => claims.push (toLex (claim.subject, claim.predicate)) claim)
      assembly.claims := by
  induction changes generalizing assembly with
  | nil =>
    obtain rfl := Except.ok.inj h
    rfl
  | cons change rest ih =>
    rw [foldlM_cons, bind_eq_ok] at h
    obtain ⟨middle, hstep, h⟩ := h
    cases hmutation : change.mutation with
    | claim claim =>
      simp only [hmutation, Except.ok.injEq] at hstep
      subst hstep
      rw [ih h, filterMap_cons, hmutation]
      rfl
    | _ => simp [hmutation, invalid] at hstep

/-- The claims of the rows that a snapshot is assembled from. -/
theorem ScopeLogs.filterMap_enteredChanges (h : ScopeLogs externals scope log state) :
    (visibleChanges (enteredChanges state scope) scope state.cursor).filterMap
      (fun change => change.mutation.claim?) = log := by
  obtain ⟨hscope, hlog⟩ := h.log_eq
  rw [visibleChanges_enteredChanges, enteredChanges, h.logs.reachable.whole.visibleChanges_head,
    filterMap_filter, filterMap_filter, ← hlog]
  refine filterMap_congr fun change hmem => ?_
  rw [hscope change hmem]
  cases hmutation : change.mutation with
  | claim claim =>
    have hentered : (entered state.log change).isSome := by
      rw [entered, LogSpaces.entryOf, hmutation]
      rfl
    simp [hentered, RuntimeMutation.claim?]
  | _ => simp [RuntimeMutation.claim?]

/-- Where there is a snapshot, no claim lost its confidence in its row. -/
theorem ScopeLogs.holds (h : ScopeLogs externals scope log state)
    (hsnapshot : dataSnapshot externals state scope validAt maxKeys = .ok snapshot) :
    state.claims.Holds log := by
  have hexact := (h.logs.reachable.whole.of_dataSnapshot hsnapshot).1
  have hstored : ∀ claim ∈ log, claim.stored = claim := by
    intro claim hclaim
    rw [← h.filterMap_enteredChanges, mem_filterMap, visibleChanges_enteredChanges] at hclaim
    obtain ⟨change, hchange, hclaim⟩ := hclaim
    refine (hexact change hchange).stored ?_
    cases hmutation : change.mutation <;> simp_all [RuntimeMutation.claim?]
  have hrows : log.map Claim.stored = log := (map_congr_left hstored).trans (map_id _)
  exact hrows ▸ h.logs.holds

theorem ScopeLogs.snapshot_claims (h : ScopeLogs externals scope log state)
    (hsnapshot : dataSnapshot externals state scope validAt maxKeys = .ok snapshot) :
    snapshot.claims = resolveSnapshotClaims
      (groupBy (fun claim : Claim => toLex (claim.subject, claim.predicate)) log)
      validAt := by
  rw [(h.logs.reachable.whole.of_dataSnapshot hsnapshot).2, enteredSnapshot] at hsnapshot
  cases hschema : schemaOf state.log scope with
  | none =>
    simp only [hschema, lift_eq_ok, fromClaimChanges, bind_eq_ok] at hsnapshot
    obtain ⟨assembly, hfold, hsnapshot⟩ := hsnapshot
    obtain rfl := Except.ok.inj hsnapshot
    rw [ofAssembly, Assembly.foldlM_addClaim hfold, h.filterMap_enteredChanges]
    rfl
  | some schema =>
    simp only [hschema, lift_eq_ok, fromChanges_eq_ok] at hsnapshot
    obtain ⟨-, -, rfl⟩ := hsnapshot
    rw [ofAssembly, Assembly.claims_foldl_advance, h.filterMap_enteredChanges]
    rfl

/-! ### Agreement -/

variable {subject : Subject} {predicate : Predicate} {start : Nat} {claim : Claim}

/-- The correction of a start that a snapshot prefers is also the one that is stored. -/
def Settled (log : List Claim) (subject : Subject) (predicate : Predicate) (start : Nat) : Prop :=
  ∀ claim ∈ newestCorrection (versionsOf log subject predicate) start,
    last claimKey log (claimKey claim) = some claim

theorem newestCorrection_versionsOf
    (h : newestCorrection (versionsOf log subject predicate) start = some claim) :
    claim ∈ log ∧ Claim.At claim subject predicate start ∧
      ∀ other ∈ log, Claim.At other subject predicate start → other.txTime ≤ claim.txTime := by
  have hmem := Stable.best_mem h
  simp only [versionsOf, mem_filter, decide_eq_true_eq, beq_iff_eq] at hmem
  obtain ⟨⟨hlog, hsubject, hpredicate⟩, hstart⟩ := hmem
  refine ⟨hlog, ⟨hsubject, hpredicate, hstart⟩, fun other hother hotherAt => ?_⟩
  have hle := Stable.best_le h other (by simp [versionsOf, hother, hotherAt.1, hotherAt.2.1,
    hotherAt.2.2])
  rw [NewestFirst, hstart, hotherAt.2.2] at hle
  rcases hle with hlt | ⟨-, hlt | ⟨heq, -⟩⟩
  · exact absurd hlt (lt_irrefl _)
  · exact hlt.le
  · exact heq.le

theorem exists_newestCorrection {other : Claim} (hmem : other ∈ log)
    (hat : Claim.At other subject predicate start) :
    ∃ claim, newestCorrection (versionsOf log subject predicate) start = some claim := by
  rw [← Option.isSome_iff_exists, Option.isSome_iff_ne_none, newestCorrection, Ne,
    Stable.best_eq_none_iff]
  refine ne_nil_of_mem (a := other) ?_
  simp [versionsOf, hmem, hat.1, hat.2.1, hat.2.2]

theorem Settled.newestCorrection_iff (h : Settled log subject predicate start) :
    newestCorrection (versionsOf log subject predicate) start = some claim ↔
      NewestAt log subject predicate start claim := by
  have hnewest : ∀ {claim}, newestCorrection (versionsOf log subject predicate) start =
      some claim → NewestAt log subject predicate start claim := by
    intro claim hclaim
    obtain ⟨-, hat, hnewest⟩ := newestCorrection_versionsOf hclaim
    exact ⟨h claim hclaim, hat, hnewest⟩
  refine ⟨hnewest, fun hclaim => ?_⟩
  obtain ⟨other, hother⟩ := exists_newestCorrection hclaim.mem hclaim.at_
  rw [hother, (hnewest hother).unique hclaim]

/-- Where the starts up to an instant are settled, the snapshot lists what the lookup finds. -/
theorem inForce_iff_answers (h : ∀ start ≤ validAt, Settled log subject predicate start) :
    (InForce validAt (versionsOf log subject predicate) claim ∧
      claim.subject = subject ∧ claim.predicate = predicate) ↔
      Answers log subject predicate validAt claim := by
  constructor
  · rintro ⟨hforce, -, -⟩
    have hle := Claim.validFrom_le hforce.valid
    refine ⟨(h _ hle).newestCorrection_iff.mp hforce.newest, hforce.valid, ?_⟩
    intro start hstart other hother
    by_cases hlate : validAt < start
    · exact Claim.validAt_of_lt (hother.at_.2.2 ▸ hlate)
    · exact hforce.later start hstart other
        ((h start (not_lt.mp hlate)).newestCorrection_iff.mpr hother)
  · intro hanswers
    have hle := Claim.validFrom_le hanswers.valid
    refine ⟨⟨(h _ hle).newestCorrection_iff.mpr hanswers.newest, hanswers.valid, ?_⟩,
      hanswers.newest.at_.1, hanswers.newest.at_.2.1⟩
    intro start hstart other hother
    by_cases hlate : validAt < start
    · exact Claim.validAt_of_lt ((newestCorrection_versionsOf hother).2.1.2.2 ▸ hlate)
    · exact hanswers.later start hstart other
        ((h start (not_lt.mp hlate)).newestCorrection_iff.mp hother)

theorem inForce_start
    (h : newestCorrection (versionsOf log subject predicate) start = some claim)
    (hvalid : claim.validate = .ok ()) :
    InForce start (versionsOf log subject predicate) claim := by
  obtain ⟨-, ⟨-, -, rfl⟩, -⟩ := newestCorrection_versionsOf h
  refine ⟨h, Claim.validAt_start hvalid, fun later hlater other hother => ?_⟩
  exact Claim.validAt_of_lt ((newestCorrection_versionsOf hother).2.1.2.2 ▸ hlater)

/-- A snapshot lists the claim that a lookup finds. -/
def RecallAgrees (externals : Externals) (state : State) (scope : ScopeId) (maxKeys : Nat) : Prop :=
  ∀ validAt snapshot, dataSnapshot externals state scope validAt maxKeys = .ok snapshot →
    ∀ subject predicate claim,
      (claim ∈ snapshot.claims ∧ claim.subject = subject ∧ claim.predicate = predicate) ↔
        state.claims.asOf subject predicate validAt = some claim

def committedClaims (first second : Claim) : List Request :=
  [.plain (proposal 0 [.claim first]), .plain (proposal 1 [.claim second])]

theorem scopeLogs_committedClaims {first second : Claim} {run : List Claim × State}
    (h : logRun .numbered (committedClaims first second) = .ok run) :
    ScopeLogs .numbered tenant run.1 run.2 := by
  refine foldlM_invariant (P := fun run => ScopeLogs .numbered tenant run.1 run.2) h .empty ?_
  intro run request hrequest after hstep hlogs
  obtain ⟨writes, hprepare, hafter⟩ := bind_eq_ok.mp hstep
  cases hafter
  refine hlogs.step ?_ hprepare
  revert request
  simp [committedClaims, Request.OfScope, Request.plain, proposal]

end Rrflow.Store

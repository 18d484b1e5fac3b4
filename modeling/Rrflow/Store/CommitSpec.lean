import Rrflow.Store.Operations

/-!
What an accepted commit does to the store.

The logged keyspaces are functions of the change log: `place` writes one more change
into them, and `replay` is the fold of `place` over a log. The plan of a commit reads
a captured state and stages relations on the side, and still its writes come out the
same: applied to that state, they place the changes of the commit one after the other.
-/

namespace Rrflow.Store

open Kernel Checks List SortedMap

variable {commit : RuntimeCommit} {state : State} {digests : Digests} {cursor : Nat}
  {previous : Option String} {mutations : List RuntimeMutation} {plan plan' : Plan}
  {mutation : RuntimeMutation}

/-! ### Placing changes -/

variable (spaces : LogSpaces)

variable (change : RuntimeChange)

namespace LogSpaces

def applyAll (writes : List LogWrite) : LogSpaces :=
  writes.foldl apply spaces

@[simp] theorem applyAll_nil : spaces.applyAll [] = spaces := rfl

@[simp] theorem applyAll_cons (write : LogWrite) (writes : List LogWrite) :
    spaces.applyAll (write :: writes) = (spaces.apply write).applyAll writes := rfl

/-- One more change at the end of the log. -/
def place : LogSpaces :=
  spaces.applyAll
    (.change change.cursor change :: (encodeDomainEffect spaces .empty change.scope change).1)

end LogSpaces

namespace ClaimSpaces

def applyAll (spaces : ClaimSpaces) (writes : List ClaimWrite) : ClaimSpaces :=
  writes.foldl apply spaces

/-- The next claim of the log, with the sequence number before it. -/
def place (log : ClaimSpaces × Nat) (claim : Claim) : ClaimSpaces × Nat :=
  (log.1.applyAll [.claim (claimKey claim) claim.stored, .sequence (log.2 + 1) (claimKey claim)],
    log.2 + 1)

end ClaimSpaces

def ControlSpaces.applyAll (spaces : ControlSpaces) (writes : List ControlWrite) : ControlSpaces :=
  writes.foldl ControlSpaces.apply spaces

namespace State

@[simp] theorem applyAll_map_logged (state : State) (writes : List LogWrite) :
    state.applyAll (writes.map .logged) =
      { state with logged := state.logged.applyAll writes } := by
  induction writes generalizing state with
  | nil => rfl
  | cons write rest ih => exact ih _

@[simp] theorem applyAll_map_claim (state : State) (writes : List ClaimWrite) :
    state.applyAll (writes.map .claim) = { state with claims := state.claims.applyAll writes } := by
  induction writes generalizing state with
  | nil => rfl
  | cons write rest ih => exact ih _

@[simp] theorem applyAll_map_control (state : State) (writes : List ControlWrite) :
    state.applyAll (writes.map .control) =
      { state with control := state.control.applyAll writes } := by
  induction writes generalizing state with
  | nil => rfl
  | cons write rest ih => exact ih _

end State

theorem map_index_control (indexWrites : List IndexWrite) :
    indexWrites.map (fun write => Write.control (.index write.1 write.2)) =
      (indexWrites.map fun write => ControlWrite.index write.1 write.2).map Write.control := by
  rw [map_map]
  rfl

/-- The keyspaces that a log determines. -/
def replay (log : List RuntimeChange) : LogSpaces := log.foldl LogSpaces.place .empty

theorem replay_append (log more : List RuntimeChange) :
    replay (log ++ more) = more.foldl LogSpaces.place (replay log) :=
  foldl_append ..

def commitChanges (digests : Digests) (commit : RuntimeCommit) (cursor ordinal : Nat)
    (previous : Option String) : List RuntimeMutation → List RuntimeChange
  | [] => []
  | mutation :: rest =>
    let change := RuntimeChange.committed digests (cursor + 1) commit (digests.commit commit)
      ordinal mutation previous
    change :: commitChanges digests commit (cursor + 1) (ordinal + 1) (some change.digest) rest

/-- Changes at consecutive cursors, each naming the digest of the one before. -/
def Chain (digests : Digests) (cursor : Nat) (previous : Option String) :
    List RuntimeChange → Prop
  | [] => True
  | change :: rest =>
    (change.cursor = cursor + 1 ∧ change.previousDigest = previous ∧
      change.verifyDigest digests = true) ∧
    Chain digests (cursor + 1) (some change.digest) rest

/-- The digest at the end of a log that continues another one. -/
def lastDigestOf (previous : Option String) (log : List RuntimeChange) : Option String :=
  (log.getLast?.map (·.digest)).or previous

@[simp] theorem lastDigestOf_nil (previous : Option String) : lastDigestOf previous [] = previous :=
  rfl

@[simp] theorem lastDigestOf_cons (previous : Option String) (change : RuntimeChange)
    (log : List RuntimeChange) :
    lastDigestOf previous (change :: log) = lastDigestOf (some change.digest) log := by
  cases log with
  | nil => rfl
  | cons other rest => simp [lastDigestOf, getLast?_cons]

theorem lastDigestOf_append (previous : Option String) (log more : List RuntimeChange) :
    lastDigestOf previous (log ++ more) = lastDigestOf (lastDigestOf previous log) more := by
  induction log generalizing previous with
  | nil => rfl
  | cons change rest ih => rw [cons_append, lastDigestOf_cons, lastDigestOf_cons, ih]

theorem chain_append {log more : List RuntimeChange} :
    Chain digests cursor previous (log ++ more) ↔
      Chain digests cursor previous log ∧
        Chain digests (cursor + log.length) (lastDigestOf previous log) more := by
  induction log generalizing cursor previous with
  | nil => simp [Chain]
  | cons change rest ih =>
    rw [cons_append, Chain, ih, Chain, lastDigestOf_cons, length_cons,
      Nat.add_right_comm, Nat.add_assoc]
    simp only [and_assoc]

theorem chain_commitChanges (digests : Digests) (commit : RuntimeCommit) (cursor ordinal : Nat)
    (previous : Option String) (mutations : List RuntimeMutation) :
    Chain digests cursor previous
      (commitChanges digests commit cursor ordinal previous mutations) := by
  induction mutations generalizing cursor ordinal previous with
  | nil => trivial
  | cons mutation rest ih =>
    exact ⟨⟨rfl, rfl, RuntimeChange.verifyDigest_committed ..⟩, ih ..⟩

@[simp] theorem length_commitChanges (digests : Digests) (commit : RuntimeCommit)
    (cursor ordinal : Nat) (previous : Option String) (mutations : List RuntimeMutation) :
    (commitChanges digests commit cursor ordinal previous mutations).length =
      mutations.length := by
  induction mutations generalizing cursor ordinal previous with
  | nil => rfl
  | cons mutation rest ih => simp [commitChanges, ih]

theorem mem_commitChanges {ordinal : Nat} {change : RuntimeChange}
    (h : change ∈ commitChanges digests commit cursor ordinal previous mutations) :
    change.mutation ∈ mutations ∧ change.scope = commit.scope := by
  induction mutations generalizing cursor ordinal previous with
  | nil => cases h
  | cons mutation rest ih =>
    rcases mem_cons.mp h with rfl | h
    · exact ⟨mem_cons_self .., rfl⟩
    · obtain ⟨hmem, hcommit⟩ := ih h
      exact ⟨mem_cons_of_mem _ hmem, hcommit⟩

theorem commitId_of_mem_commitChanges {ordinal : Nat} {change : RuntimeChange}
    (h : change ∈ commitChanges digests commit cursor ordinal previous mutations) :
    change.commitId = digests.commit commit := by
  induction mutations generalizing cursor ordinal previous with
  | nil => cases h
  | cons mutation rest ih =>
    rcases mem_cons.mp h with rfl | h
    · rfl
    · exact ih h

theorem encodeDomainEffect_congr {spaces spaces' : LogSpaces} {staged staged' : StagedRelations}
    {scope : ScopeId} (h : ∀ reference, currentRelation spaces staged scope reference =
      currentRelation spaces' staged' scope reference) (change : RuntimeChange) :
    (encodeDomainEffect spaces staged scope change).1 =
      (encodeDomainEffect spaces' staged' scope change).1 := by
  unfold encodeDomainEffect encodeRetirement
  cases change.mutation with
  | relation relation => simp only [h]
  | retire retirement =>
    simp only [h]
    cases retirement.model.family with
    | relation => cases currentRelation spaces' staged' scope retirement.reference <;> rfl
    | _ => rfl
  | _ => rfl

def relationsAfter (relations : SortedMap IdentityKey RuntimeRelation) (scope : ScopeId)
    (change : RuntimeChange) : SortedMap IdentityKey RuntimeRelation :=
  match change.mutation with
  | .relation relation => relations.insert (identityKey scope relation.reference) relation
  | .retire retirement =>
    if retirement.model.family = .relation then
      relations.erase (identityKey scope retirement.reference) else relations
  | _ => relations

theorem applyAll_encodeDomainEffect (target spaces : LogSpaces) (staged : StagedRelations)
    (scope : ScopeId) (change : RuntimeChange) :
    (target.applyAll (encodeDomainEffect spaces staged scope change).1).relations =
        relationsAfter target.relations scope change ∧
      (target.applyAll (encodeDomainEffect spaces staged scope change).1).changes = target.changes ∧
      (target.applyAll (encodeDomainEffect spaces staged scope change).1).schemas =
        match change.mutation with
        | .schema registry => target.schemas.insert scope registry
        | _ => target.schemas := by
  unfold encodeDomainEffect encodeRetirement relationsAfter
  cases change.mutation with
  | relation relation =>
    cases hcurrent : currentRelation spaces staged scope relation.reference <;>
      simp [hcurrent, putAdjacency, deleteCurrentAdjacency, putVersion, LogSpaces.apply]
  | retire retirement =>
    cases hfamily : retirement.model.family with
    | relation =>
      cases hcurrent : currentRelation spaces staged scope retirement.reference <;>
        simp [hfamily, hcurrent, putTemporalAdjacency, deleteCurrentAdjacency, putVersion,
          LogSpaces.apply]
    | _ => simp [hfamily, putVersion, LogSpaces.apply]
  | _ => simp [putVersion, LogSpaces.apply]

theorem LogSpaces.changes_place :
    (spaces.place change).changes = spaces.changes.insert change.cursor change :=
  (applyAll_encodeDomainEffect _ _ _ _ _).2.1

theorem LogSpaces.schemas_place : (spaces.place change).schemas =
      match change.mutation with
      | .schema registry => spaces.schemas.insert change.scope registry
      | _ => spaces.schemas :=
  (applyAll_encodeDomainEffect _ _ _ _ _).2.2

theorem relation?_eq_currentRelation_empty (scope : ScopeId) (reference : RuntimeRef) :
    currentRelation spaces .empty scope reference = spaces.relation? scope reference := rfl

/-- The staged relations keep up with the state that the writes lead to. -/
theorem currentRelation_staged {spaces target : LogSpaces} {staged : StagedRelations}
    {scope : ScopeId} (h : ∀ reference, currentRelation spaces staged scope reference =
      target.relation? scope reference) (change : RuntimeChange) (reference : RuntimeRef) :
    currentRelation spaces (encodeDomainEffect spaces staged scope change).2 scope reference =
      (target.applyAll (encodeDomainEffect spaces staged scope change).1).relation? scope
        reference := by
  unfold LogSpaces.relation?
  rw [(applyAll_encodeDomainEffect _ _ _ _ _).1]
  have hkey (other : RuntimeRef) :
      identityKey scope reference = identityKey scope other ↔ reference = other := by
    simp [identityKey]
  unfold encodeDomainEffect encodeRetirement relationsAfter
  cases change.mutation with
  | relation relation =>
    simp only [find?_insert, hkey]
    by_cases heq : reference = relation.reference
    · simp [heq, currentRelation]
    · simpa [heq, currentRelation, find?_insert, LogSpaces.relation?] using h reference
  | retire retirement =>
    cases hfamily : retirement.model.family with
    | relation =>
      have hhere := h retirement.reference
      cases hcurrent : currentRelation spaces staged scope retirement.reference with
      | none =>
        simp only [hfamily, hcurrent, if_true, find?_erase, hkey]
        by_cases heq : reference = retirement.reference
        · simpa [heq] using hcurrent
        · simpa [heq, LogSpaces.relation?] using h reference
      | some relation =>
        simp only [hfamily, hcurrent, if_true, find?_erase, hkey]
        by_cases heq : reference = retirement.reference
        · simp [heq, currentRelation]
        · simpa [heq, currentRelation, find?_insert, LogSpaces.relation?] using h reference
    | _ => simpa [hfamily, LogSpaces.relation?] using h reference
  | _ => exact h reference

/-! ### The loop over the mutations -/

theorem next_eq_ok {n m : Nat} : next n = .ok m ↔ n < u64Max ∧ m = n + 1 := by
  simp only [next, bind_eq_ok, ensure_eq_ok, pure, Except.pure, Except.ok.injEq]
  exact ⟨fun ⟨_, h, h'⟩ => ⟨h, h'.symm⟩, fun ⟨h, h'⟩ => ⟨(), h, h'.symm⟩⟩

theorem lift_eq_ok {α : Type} {x : Except Kernel.Error α} {a : α} : lift x = .ok a ↔ x = .ok a := by
  cases x <;> simp [lift, Except.mapError]

variable {externals : Externals}

def Plan.changeOf (externals : Externals) (commit : RuntimeCommit) (plan : Plan)
    (mutation : RuntimeMutation) : RuntimeChange :=
  RuntimeChange.committed externals.digests (plan.cursor + 1) commit
    (externals.digests.commit commit) plan.ordinal mutation plan.previousDigest

theorem Plan.add_eq_ok (h : plan.add externals state commit mutation = .ok plan') :
    plan.cursor < u64Max ∧ ∃ sequence claimWrites,
      encodeMutationClaim plan.claimSequence mutation = .ok (sequence, claimWrites) ∧
      plan' =
        { cursor := plan.cursor + 1, claimSequence := sequence
          previousDigest := some (plan.changeOf externals commit mutation).digest
          accumulator := ⟨plan.accumulator.leaves ++ [plan.changeOf externals commit mutation]⟩
          staged := (encodeDomainEffect state.logged plan.staged commit.scope
            (plan.changeOf externals commit mutation)).2
          ordinal := plan.ordinal + 1
          outboxCount := plan.outboxCount + (if mutation.isProjected then 1 else 0)
          writes := plan.writes ++ (claimWrites.map .claim ++
            (.change (plan.cursor + 1) (plan.changeOf externals commit mutation) ::
              (encodeDomainEffect state.logged plan.staged commit.scope
                (plan.changeOf externals commit mutation)).1).map .logged) } := by
  simp only [Plan.add, bind_eq_ok] at h
  obtain ⟨⟨sequence, claimWrites⟩, hclaim, cursor, hcursor, accumulator, happend, h⟩ := h
  obtain ⟨hlt, rfl⟩ := next_eq_ok.mp hcursor
  simp only [LogLeaves.appendChange, bind_eq_ok, ensure_eq_ok] at happend
  obtain ⟨_, -, _, -, haccumulator⟩ := happend
  obtain rfl := Except.ok.inj haccumulator
  obtain rfl := Except.ok.inj h
  exact ⟨hlt, sequence, claimWrites, hclaim, rfl⟩

theorem Plan.logged_add (h : plan.add externals state commit mutation = .ok plan')
    (hstaged : ∀ reference, currentRelation state.logged plan.staged commit.scope reference =
      (state.applyAll plan.writes).logged.relation? commit.scope reference) :
    (state.applyAll plan'.writes).logged =
      (state.applyAll plan.writes).logged.place (plan.changeOf externals commit mutation) ∧
    ∀ reference, currentRelation state.logged plan'.staged commit.scope reference =
      (state.applyAll plan'.writes).logged.relation? commit.scope reference := by
  obtain ⟨-, sequence, claimWrites, -, rfl⟩ := Plan.add_eq_ok h
  have heffects : (encodeDomainEffect state.logged plan.staged commit.scope
        (plan.changeOf externals commit mutation)).1 =
      (encodeDomainEffect (state.applyAll plan.writes).logged .empty commit.scope
        (plan.changeOf externals commit mutation)).1 :=
    encodeDomainEffect_congr hstaged _
  -- the entry of the change log itself does not touch the relations
  have hentry : ∀ reference, currentRelation state.logged plan.staged commit.scope reference =
      ((state.applyAll plan.writes).logged.apply (.change (plan.cursor + 1)
        (plan.changeOf externals commit mutation))).relation? commit.scope reference := hstaged
  constructor
  · simp only [State.applyAll_append, State.applyAll_map_logged, State.applyAll_map_claim, heffects]
    rfl
  · intro reference
    simp only [State.applyAll_append, State.applyAll_map_logged, State.applyAll_map_claim,
      LogSpaces.applyAll_cons]
    exact currentRelation_staged hentry _ reference

theorem encodeMutationClaim_eq_ok {sequence sequence' : Nat} {writes : List ClaimWrite}
    (h : encodeMutationClaim sequence mutation = .ok (sequence', writes)) :
    (∀ claim ∈ mutation.claim?, claim.validate = .ok () ∧ sequence < u64Max) ∧
    ∀ spaces : ClaimSpaces, (spaces.applyAll writes, sequence') =
      mutation.claim?.toList.foldl ClaimSpaces.place (spaces, sequence) := by
  unfold encodeMutationClaim at h
  cases mutation with
  | claim claim =>
    simp only [bind_eq_ok, encodeClaim, lift_eq_ok] at h
    obtain ⟨_, hvalid, next, hnext, h⟩ := h
    obtain ⟨hlt, rfl⟩ := next_eq_ok.mp hnext
    obtain ⟨rfl, rfl⟩ := Prod.mk.inj (Except.ok.inj h)
    refine ⟨?_, fun spaces => rfl⟩
    intro other hother
    obtain rfl : claim = other := by simpa [RuntimeMutation.claim?] using hother
    exact ⟨hvalid, hlt⟩
  | _ =>
    obtain ⟨rfl, rfl⟩ := Prod.mk.inj (Except.ok.inj h)
    exact ⟨by simp [RuntimeMutation.claim?], fun spaces => rfl⟩

/-- What the loop over the mutations leaves: only the log and the claims change. -/
structure Plan.Run (externals : Externals) (state : State) (commit : RuntimeCommit) (plan : Plan)
    (mutations : List RuntimeMutation) (plan' : Plan) : Prop where
  cursor : plan'.cursor = plan.cursor + mutations.length
  bound : mutations ≠ [] → plan'.cursor ≤ u64Max
  previous : plan'.previousDigest = lastDigestOf plan.previousDigest
    (commitChanges externals.digests commit plan.cursor plan.ordinal plan.previousDigest mutations)
  leaves : plan'.accumulator.leaves = plan.accumulator.leaves ++
    commitChanges externals.digests commit plan.cursor plan.ordinal plan.previousDigest mutations
  claims : ∀ claim ∈ mutations.filterMap RuntimeMutation.claim?, claim.validate = .ok ()
  effect : state.applyAll plan'.writes =
    { state.applyAll plan.writes with
      logged := (commitChanges externals.digests commit plan.cursor plan.ordinal
        plan.previousDigest mutations).foldl LogSpaces.place (state.applyAll plan.writes).logged
      claims := ((mutations.filterMap RuntimeMutation.claim?).foldl ClaimSpaces.place
        ((state.applyAll plan.writes).claims, plan.claimSequence)).1 }
  sequence : plan'.claimSequence = ((mutations.filterMap RuntimeMutation.claim?).foldl
    ClaimSpaces.place ((state.applyAll plan.writes).claims, plan.claimSequence)).2

theorem Plan.foldlM_add (h : mutations.foldlM (Plan.add externals state commit) plan = .ok plan')
    (hstaged : ∀ reference, currentRelation state.logged plan.staged commit.scope reference =
      (state.applyAll plan.writes).logged.relation? commit.scope reference) :
    Plan.Run externals state commit plan mutations plan' := by
  induction mutations generalizing plan with
  | nil =>
    obtain rfl := Except.ok.inj h
    exact ⟨rfl, fun hne => absurd rfl hne, rfl, (append_nil _).symm, by simp, rfl, rfl⟩
  | cons mutation rest ih =>
    rw [foldlM_cons, bind_eq_ok] at h
    obtain ⟨middle, hadd, hrest⟩ := h
    obtain ⟨hlogged, hstaged'⟩ := Plan.logged_add hadd hstaged
    have hrun := ih hrest hstaged'
    obtain ⟨hlt, sequence, claimWrites, hclaim, hmiddle⟩ := Plan.add_eq_ok hadd
    obtain ⟨hvalid, hplaced⟩ := encodeMutationClaim_eq_ok hclaim
    have hcons : (mutation :: rest).filterMap RuntimeMutation.claim? =
        mutation.claim?.toList ++ rest.filterMap RuntimeMutation.claim? := by
      cases hc : mutation.claim? <;> simp [hc]
    have heffect : state.applyAll middle.writes =
        { state.applyAll plan.writes with
          logged := (state.applyAll plan.writes).logged.place
            (plan.changeOf externals commit mutation)
          claims := (state.applyAll plan.writes).claims.applyAll claimWrites } := by
      rw [← hlogged, hmiddle]
      simp only [State.applyAll_append, State.applyAll_map_logged, State.applyAll_map_claim]
    have hfold : ((mutation :: rest).filterMap RuntimeMutation.claim?).foldl ClaimSpaces.place
          ((state.applyAll plan.writes).claims, plan.claimSequence) =
        (rest.filterMap RuntimeMutation.claim?).foldl ClaimSpaces.place
          ((state.applyAll middle.writes).claims, middle.claimSequence) := by
      rw [hcons, foldl_append, ← hplaced, heffect, hmiddle]
    subst hmiddle
    refine ⟨?_, ?_, ?_, ?_, ?_, ?_, ?_⟩
    · rw [hrun.cursor, length_cons]
      exact (Nat.add_right_comm ..).trans (Nat.add_assoc ..)
    · intro _
      rcases rest.eq_nil_or_concat with rfl | ⟨init, last, rfl⟩
      · exact hrun.cursor ▸ hlt
      · exact hrun.bound (by simp)
    · exact hrun.previous.trans (lastDigestOf_cons ..).symm
    · exact hrun.leaves.trans (by simp [commitChanges, Plan.changeOf])
    · intro claim hmem
      rw [hcons, mem_append] at hmem
      rcases hmem with hmem | hmem
      · exact (hvalid claim (by simpa using hmem)).1
      · exact hrun.claims claim hmem
    · rw [hrun.effect, hfold, heffect]
      rfl
    · rw [hrun.sequence, hfold]

/-- The changes that a commit would get as the next one. -/
def State.changesOf (externals : Externals) (state : State) (commit : RuntimeCommit) :
    List RuntimeChange :=
  commitChanges externals.digests commit state.cursor 0 state.headDigest commit.mutations

/-- The claim log after a commit, with its last sequence number. -/
def State.claimsAfter (state : State) (commit : RuntimeCommit) : ClaimSpaces × Nat :=
  (commit.mutations.filterMap RuntimeMutation.claim?).foldl ClaimSpaces.place
    (state.claims, state.claims.watermark)

/-- A commit that the store accepts, what was checked and what it leaves. -/
structure Accepted (externals : Externals) (state : State) (commit : RuntimeCommit)
    (outcome : RuntimeCommitOutcome) (writes : List Write)
    (accumulator : LogLeaves) (schema : Option RuntimeSchemaRegistry)
    (audit : AuditEnvelope) (indexWrites : List IndexWrite) : Prop where
  valid : commit.validate externals.floats = .ok ()
  expected : state.cursor = commit.expectedCursor
  log : currentAccumulator state state.cursor = .ok accumulator
  objects : validateSchemaAndObjects state commit = .ok schema
  bound : state.cursor + commit.mutations.length ≤ u64Max
  claims : ∀ claim ∈ commit.mutations.filterMap RuntimeMutation.claim?, claim.validate = .ok ()
  commitId : outcome.commitId = externals.digests.commit commit
  firstCursor : outcome.firstCursor = state.cursor + 1
  lastCursor : outcome.lastCursor = state.cursor + commit.mutations.length
  envelope : ∃ read, AuditEnvelope.acceptedCommitAtRead externals.digests commit read
    (externals.digests.commit commit) (state.cursor + commit.mutations.length) state.headAudit =
      .ok audit
  effect : state.applyAll writes =
    { logged := (state.changesOf externals commit).foldl LogSpaces.place state.logged
      cursor := state.cursor + commit.mutations.length
      lastDigest := some ((lastDigestOf state.headDigest
        (state.changesOf externals commit)).getD "")
      accumulator := some ⟨accumulator.leaves ++ state.changesOf externals commit⟩
      audits := state.audits.insert (externals.digests.commit commit) audit
      lastAudit := some audit.digest
      commits := state.commits.insert (externals.digests.commit commit) outcome
      claims :=
        if commit.mutations.any RuntimeMutation.isClaim then
          { (state.claimsAfter commit).1 with watermark := (state.claimsAfter commit).2 }
        else (state.claimsAfter commit).1
      control := (state.control.applyAll (indexWrites.map fun write => .index write.1 write.2)).apply
        (.catalogRevision commit.scope (state.catalogRevision commit.scope)) }

theorem RuntimeCommit.mutations_ne_nil {floats : Floats} (h : commit.validate floats = .ok ()) :
    commit.mutations ≠ [] := by
  simp only [RuntimeCommit.validate, bind_eq_ok, ensure_eq_ok] at h
  exact h.choose_spec.2.choose_spec.1

theorem prepareSemanticCommit_eq_ok {read : Option ReadStamp} {archivedAudit : Option AuditEnvelope}
    {outcome : RuntimeCommitOutcome} {writes : List Write}
    (h : prepareSemanticCommit externals state commit read archivedAudit = .ok (outcome, writes)) :
    ∃ accumulator schema audit indexWrites,
      Accepted externals state commit outcome writes accumulator schema audit indexWrites := by
  simp only [prepareSemanticCommit, bind_eq_ok, ensure_eq_ok, lift_eq_ok] at h
  obtain ⟨_, hvalid, _, -, _, -, _, hexpected, accumulator, hlog, _, -, schema, hobjects, _, -,
    plan, hplan, indexWrites, -, audit, haudit, _, -, firstCursor, hfirst, firstClaim, -,
    _, -, h⟩ := h
  obtain ⟨rfl, rfl⟩ := Prod.mk.inj (Except.ok.inj h)
  have hrun := Plan.foldlM_add hplan fun reference => rfl
  have hcursor : plan.cursor = state.cursor + commit.mutations.length := hrun.cursor
  refine ⟨accumulator, schema, audit, indexWrites,
    { valid := hvalid, expected := hexpected, log := hlog, objects := hobjects
      bound := hcursor ▸ hrun.bound (RuntimeCommit.mutations_ne_nil hvalid)
      claims := hrun.claims, commitId := rfl, firstCursor := (next_eq_ok.mp hfirst).2
      lastCursor := hcursor
      envelope := ⟨_, hcursor ▸ haudit⟩, effect := ?_ }⟩
  have hleaves : plan.accumulator =
      ⟨accumulator.leaves ++ state.changesOf externals commit⟩ :=
    congrArg LogLeaves.mk hrun.leaves
  rw [State.applyAll_append, State.applyAll_append, map_index_control, State.applyAll_map_control,
    hrun.effect]
  simp only [closingWrites, State.applyAll_append, State.applyAll_nil, hcursor, hrun.previous,
    hleaves, hrun.sequence]
  by_cases hclaims : commit.mutations.any RuntimeMutation.isClaim = true
  · simp only [hclaims, if_true]
    rfl
  · simp only [hclaims]
    rfl

end Rrflow.Store

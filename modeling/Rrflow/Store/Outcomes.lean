import Rrflow.Store.Invariant

/-!
Published commits own their part of the log.

The outcome of a commit is kept under its digest, with the cursors of its changes. All
changes between these cursors carry that digest.
-/

namespace Rrflow.Store

open Kernel Checks List

variable {externals : Externals}

/-- The range of an outcome lies in the log and holds changes of its commit only. -/
structure Owns (state : State) (commitId : String) (outcome : RuntimeCommitOutcome) : Prop where
  id : outcome.commitId = commitId
  first : 0 < outcome.firstCursor
  nonempty : outcome.firstCursor ≤ outcome.lastCursor
  last : outcome.lastCursor ≤ state.cursor
  changes : ∀ change ∈ state.log, outcome.firstCursor ≤ change.cursor →
    change.cursor ≤ outcome.lastCursor → change.commitId = commitId

variable {state : State}

/-- Every stored outcome owns its range. -/
def Owned (state : State) : Prop :=
  ∀ commitId outcome, state.commits.find? commitId = some outcome → Owns state commitId outcome

theorem Accepted.owned {commit : RuntimeCommit} {outcome : RuntimeCommitOutcome}
    {writes : List Write} {accumulator : LogLeaves}
    {schema : Option RuntimeSchemaRegistry} {audit : AuditEnvelope} {indexWrites : List IndexWrite}
    (h : Accepted externals state commit outcome writes accumulator schema audit indexWrites)
    (hwhole : Whole externals state) (howned : Owned state) : Owned (state.applyAll writes) := by
  have hlog := (h.log_eq hwhole).1
  have hcursor : (state.applyAll writes).cursor = state.cursor + commit.mutations.length := by
    rw [h.effect]
  have hlength := length_pos_of_ne_nil (RuntimeCommit.mutations_ne_nil h.valid)
  intro id found hfind
  rw [h.effect, SortedMap.find?_insert] at hfind
  split at hfind
  · rename_i hid
    obtain rfl := Option.some.inj hfind
    refine ⟨hid ▸ h.commitId, by rw [h.firstCursor]; omega,
      by rw [h.firstCursor, h.lastCursor]; omega, by rw [h.lastCursor, hcursor], ?_⟩
    intro change hmem hge _
    rw [hlog] at hmem
    rcases mem_append.mp hmem with hold | hnew
    · have hbound := (hwhole.chain.cursor_bounds hold).2
      rw [h.firstCursor, hwhole.cursor] at hge
      omega
    · exact hid ▸ commitId_of_mem_commitChanges hnew
  · have howns := howned id found hfind
    refine ⟨howns.id, howns.first, howns.nonempty, by rw [hcursor]; exact howns.last.trans (by omega),
      ?_⟩
    intro change hmem hge hle
    rw [hlog] at hmem
    rcases mem_append.mp hmem with hold | hnew
    · exact howns.changes change hold hge hle
    · have hbound := (chain_commitChanges ..).cursor_bounds hnew
      have := howns.last
      omega

theorem Reachable.owned (h : Reachable externals state) : Owned state := by
  refine h.commit_induction (P := Owned) ?_ ?_ ?_ ?_
  · intro id outcome hfind
    cases hfind
  · exact fun state claims hstate id outcome hfind =>
      ⟨(hstate id outcome hfind).1, (hstate id outcome hfind).2, (hstate id outcome hfind).3,
        (hstate id outcome hfind).4, (hstate id outcome hfind).5⟩
  · exact fun state control hstate id outcome hfind =>
      ⟨(hstate id outcome hfind).1, (hstate id outcome hfind).2, (hstate id outcome hfind).3,
        (hstate id outcome hfind).4, (hstate id outcome hfind).5⟩
  · exact fun hwhole haccepted hstate => haccepted.owned hwhole hstate

end Rrflow.Store

import Rrflow.Store.VersionIndex

/-!
Read stamps along a history.

A log only grows, so the prefix that a stamp names stays where it is. A stamp is
checked in two ways, against the current watermarks and against the retained
history; both accept the stamps of prefixes and no others. The retained history is
read back from texts, so a stamp is lost when the text of its head does not give the
head back.
-/

namespace Rrflow.Store

open Kernel Checks List

variable {externals : Externals}

/-- The state that a store is in later: any number of accepted requests lie between. -/
inductive Later (externals : Externals) (state : State) : State → Prop
  | refl : Later externals state state
  | step {middle : State} {request : Request} {writes : List Write} :
      Later externals state middle → request.prepare externals middle = .ok writes →
      Later externals state (middle.applyAll writes)

theorem Later.log_prefix {state later : State} (h : Later externals state later)
    (hwhole : Whole externals state) : Whole externals later ∧ state.log <+: later.log := by
  induction h with
  | refl => exact ⟨hwhole, prefix_rfl⟩
  | step _ hprepare ih =>
    refine ⟨ih.1.step hprepare, Request.prepare_keeps
      (P := fun later => state.log <+: later.log) hprepare (fun _ _ => id) (fun _ _ => id)
      (fun haccepted hprefix => ?_) ih.2⟩
    rw [(haccepted.log_eq ih.1).1]
    exact hprefix.trans (prefix_append ..)

def stateAfter (log : List RuntimeChange) : State :=
  { State.empty with
    logged := replay log, cursor := log.length, lastDigest := lastDigestOf none log
    accumulator := some ⟨log⟩ }

structure Describes (digests : Digests) (read : ReadStamp) (state : State) : Prop where
  cursor : read.commitCursor = state.cursor
  head : read.headDigest = state.headDigest
  schema : read.schemaRevision = (state.schema? read.scope).map (·.revision)
  root : read.accumulatorRoot = some ((storedLog state).root digests)

theorem StampOf.describes {digests : Digests} {log : List RuntimeChange} {revision : Nat}
    {read : ReadStamp} (h : StampOf digests log revision read) {state : State}
    (hwhole : Whole externals state) (hlog : state.log = log) : Describes digests read state where
  cursor := by rw [h.cursor, hwhole.cursor, hlog]
  head := by rw [h.head, hwhole.digest, hlog]
  schema := by rw [h.schema, State.schema?_eq hwhole, hlog]
  root := by rw [h.root, hwhole.accumulator, hlog]; rfl

theorem whole_stateAfter {log : List RuntimeChange} (hchain : Chain externals.digests 0 none log)
    (hbound : log.length ≤ u64Max) : Whole externals (stateAfter log) := by
  have hlog : (stateAfter log).log = log := values_changes_replay hchain
  refine ⟨by rw [hlog]; exact hchain, by rw [hlog]; rfl, by rw [hlog]; rfl, hbound, ?_,
    by rw [hlog]; rfl, ?_⟩
  · rw [hlog]
    show (lastDigestOf none log).filter (· ≠ "") = lastDigestOf none log
    rcases log.eq_nil_or_concat with rfl | ⟨init, last, rfl⟩
    · rfl
    · have hlast : lastDigestOf none (init.concat last) = some last.digest := by
        simp [lastDigestOf]
      have hfilter := filter_lastDigestOf hchain (by simp)
      rw [hlast] at hfilter ⊢
      exact hfilter
  · intro hnone
    cases hnone

theorem later_of_foldlM {requests : List Request} {state later : State}
    (h : requests.foldlM (fun state request => do
      let writes ← request.prepare externals state
      return state.applyAll writes) state = .ok later) : Later externals state later := by
  induction requests using List.reverseRecOn generalizing later with
  | nil =>
    obtain rfl := Except.ok.inj h
    exact .refl
  | append_singleton requests request ih =>
    simp only [foldlM_append, foldlM_cons, foldlM_nil, bind_eq_ok] at h
    obtain ⟨middle, hmiddle, last, ⟨writes, hprepare, hlast⟩, heq⟩ := h
    obtain rfl := Except.ok.inj hlast
    obtain rfl := Except.ok.inj heq
    exact (ih hmiddle).step hprepare

theorem Chain.eq_of_lastDigest {digests : Digests} {a b : List RuntimeChange}
    (ha : Chain digests 0 none a) (hb : Chain digests 0 none b)
    (hinjective : ∀ x ∈ a, ∀ y ∈ b, x.digest = y.digest → x = y)
    (hlast : lastDigestOf none a = lastDigestOf none b) : a = b := by
  induction a using List.reverseRecOn generalizing b with
  | nil =>
    rcases b.eq_nil_or_concat with rfl | ⟨rest, y, rfl⟩
    · rfl
    · simp [lastDigestOf] at hlast
  | append_singleton a x ih =>
    rcases b.eq_nil_or_concat' with rfl | ⟨b, y, rfl⟩
    · simp [lastDigestOf] at hlast
    · simp only [lastDigestOf_append, lastDigestOf_cons, lastDigestOf_nil, Option.some.injEq] at hlast
      obtain rfl := hinjective x (by simp) y (by simp) hlast
      obtain ⟨ha, hx⟩ := chain_append.mp ha
      obtain ⟨hb, hy⟩ := chain_append.mp hb
      rw [ih ha hb (fun x hx y hy => hinjective x (mem_append_left _ hx) y (mem_append_left _ hy))
        (hx.1.2.1.symm.trans hy.1.2.1)]

/-- The digest of the head commits to the whole store: unless two changes of different logs
have one digest, states with one head have one log and the same runtime keyspaces. -/
theorem head_digest_determines_log {state state' : State} (h : Reachable externals state)
    (h' : Reachable externals state')
    (hcollision : ∀ a ∈ state.log, ∀ b ∈ state'.log, a.digest = b.digest → a = b)
    (hhead : state.headDigest = state'.headDigest) :
    state.log = state'.log ∧ state.logged = state'.logged ∧ state.cursor = state'.cursor := by
  have hwhole := h.whole
  have hwhole' := h'.whole
  rw [hwhole.digest, hwhole'.digest] at hhead
  have hlog := hwhole.chain.eq_of_lastDigest hwhole'.chain hcollision hhead
  refine ⟨hlog, ?_, ?_⟩
  · rw [hwhole.logged, hwhole'.logged, hlog]
  · rw [hwhole.cursor, hwhole'.cursor, hlog]

theorem read_prefix {digests : Digests} {log more : List RuntimeChange}
    (h : Chain digests 0 none (log ++ more)) (scope : ScopeId)
    (step : List (RuntimeVersionedSource × Area)) :
    (visibleChanges (log ++ more) scope log.length).filter (isRead (log ++ more) scope step) =
      (visibleChanges log scope log.length).filter (isRead log scope step) := by
  obtain ⟨hlog, hmore⟩ := chain_append.mp h
  have hlate : visibleChanges more scope log.length = [] := by
    rw [visibleChanges, filter_eq_nil_iff]
    intro change hmem
    have := (hmore.cursor_bounds hmem).1
    simp only [Bool.and_eq_true, decide_eq_true_eq]
    omega
  have happend : visibleChanges (log ++ more) scope log.length =
      visibleChanges log scope log.length ++ visibleChanges more scope log.length :=
    filter_append ..
  rw [happend, hlate, append_nil]
  refine filter_congr fun change hmem => ?_
  rw [isRead, entered_append_of_mem hlog (mem_of_mem_filter hmem), isRead]

theorem head_digest_determines_log_retired : ∃ state other,
    run .numbered (retiredTwice.take 2) = .ok state ∧
    run .numbered (retiredTwice.take 2 ++ [.append []]) = .ok other ∧ state.log = other.log := by
  have hsecond : (run .numbered (retiredTwice.take 2)).toOption.any (fun state =>
      (run .numbered (retiredTwice.take 2 ++ [.append []])).toOption.any fun other =>
        state.headDigest = other.headDigest ∧
          ∀ a ∈ state.log, ∀ b ∈ other.log, a.digest = b.digest → a = b) = true := by
    decide +kernel
  obtain ⟨state, hstate, htest⟩ := exists_ok_of_any hsecond
  obtain ⟨other, hother, htest⟩ := exists_ok_of_any htest
  obtain ⟨hhead, hcollision⟩ := of_decide_eq_true htest
  exact ⟨state, other, hstate, hother, (head_digest_determines_log (reachable_of_run hstate)
    (reachable_of_run hother) hcollision hhead).1⟩

end Rrflow.Store

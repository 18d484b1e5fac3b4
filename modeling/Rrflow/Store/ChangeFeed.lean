import Rrflow.Lib.Feed
import Rrflow.Store.ClaimLog
import Rrflow.Store.StampSpec

/-!
Reading the log page by page.

A page of several changes follows the chain of digests from the change before it; a page of
one change has an inclusion proof under the root of the stamp instead. Both advance over all
changes of the log and keep those of the scope, so that pages that follow on each other show
the changes of the scope once and in order, whatever their limits. A page fails where the
text of a change does not give the change back.
-/

namespace Rrflow.Store

open Kernel Checks List Feed

structure RuntimeChangePage where
  requestedAfter : Nat
  throughCursor : Nat
  headCursor : Nat
  changes : List RuntimeChange
  deriving DecidableEq

def RuntimeChangePage.hasMore (page : RuntimeChangePage) : Bool :=
  page.throughCursor < page.headCursor

/-- How far a page has come, the digest there and the changes of the scope so far. -/
structure PageScan where
  through : Nat
  previousDigest : Option String
  selected : List RuntimeChange

variable (digests : Digests)

/-- One change of a page, which has to continue the chain. -/
def PageScan.read (state : State) (scope : Option ScopeId) (scan : PageScan) (expected : Nat) :
    Except Error PageScan :=
  match state.logged.changes.find? expected with
  | none => .error (.substrate ("runtime log is missing cursor " ++ toString expected))
  | some text => do
      let change := text.reread digests.rounded
      ensure (change.cursor = expected ∧ change.previousDigest = scan.previousDigest ∧
          change.verifyDigest digests)
        (.substrate ("runtime change " ++ toString expected ++
          " failed cursor/hash-chain verification"))
      return {
        through := expected
        previousDigest := some change.digest
        selected := if scope.all (· = change.scope) then scan.selected ++ [change]
          else scan.selected }

/-- The loop over the cursors of a page, left when the limit is reached. -/
def scanPage (digests : Digests) (state : State) (scope : Option ScopeId) (after limit : Nat) :
    List Nat → PageScan → Except Error PageScan
  | [], scan => .ok scan
  | expected :: rest, scan =>
    if limit ≤ scan.through - after then .ok scan
    else do
      let scan ← scan.read digests state scope expected
      scanPage digests state scope after limit rest scan

/-- The digest of the change that a page follows. -/
def priorDigest (state : State) (after : Nat) : Except Error (Option String) :=
  if after = 0 then .ok none
  else match state.logged.changes.find? after with
    | none => .error (.substrate ("runtime log is missing cursor " ++ toString after))
    | some text => do
        let prior := text.reread digests.rounded
        ensure (prior.verifyDigest digests)
          (.substrate ("runtime change " ++ toString after ++ " failed digest verification"))
        return some prior.digest

def changePage (state : State) (head after limit : Nat) (scope : Option ScopeId) :
    Except Error RuntimeChangePage := do
  ensure (limit ≠ 0) (.substrate "runtime change page limit must be greater than zero")
  if after = u64Max ∨ head ≤ after then
    return { requestedAfter := after, throughCursor := after, headCursor := head, changes := [] }
  else do
    let previousDigest ← priorDigest digests state after
    let scan ← scanPage digests state scope after limit (List.range' (after + 1) (head - after))
      { through := after, previousDigest, selected := [] }
    return {
      requestedAfter := after
      throughCursor := scan.through
      headCursor := head
      changes := scan.selected }

/-- The inclusion proof of a leaf in the tree of a retained size fits a change. -/
def verifyInclusion (state : State) (size leaf : Nat) (change : RuntimeChange) :
    Except Error Unit := do
  ensure (leaf < size)
    (.kernel (.invalidRuntime "runtime inclusion proof names a leaf outside its tree"))
  ensure (change.verifyDigest digests ∧ change.cursor = leaf + 1)
    (.kernel (.invalidRuntime "runtime change does not match the inclusion-proof leaf"))
  ensure ((storedLog state).leaves[leaf]? = some change)
    (.kernel (.invalidRuntime "runtime inclusion proof does not match its accumulator root"))

/-- The tree of a stamp: the stored one if it has the root, else the one of the stored nodes. -/
def stampTree (state : State) (read : ReadStamp) (root : String) : Except Error Unit :=
  match loadAccumulator state read.commitCursor with
  | .ok (some accumulator) =>
    if accumulator.root digests = root then .ok ()
    else (storedLog state).checkRetained digests read.commitCursor root
  | _ => (storedLog state).checkRetained digests read.commitCursor root

/-- The page of one change, with its inclusion proof. -/
def authenticatedPointPage (state : State) (read : ReadStamp) (cursor : Nat) :
    Except Error RuntimeChangePage :=
  match read.accumulatorRoot with
  | none => .error (.readStampMismatch read.manifestId)
  | some root => do
      stampTree digests state read root
      match state.logged.changes.find? cursor with
      | none => .error (.readStampUnavailable read.manifestId)
      | some text => do
          let change := text.reread digests.rounded
          verifyInclusion digests state read.commitCursor (cursor - 1) change
          return {
            requestedAfter := cursor - 1
            throughCursor := cursor
            headCursor := read.commitCursor
            changes := if change.scope = read.scope then [change] else [] }

/-- The changes of the scope of a stamp, after a cursor. -/
def readChanges (state : State) (read : ReadStamp) (after limit : Nat) :
    Except Error RuntimeChangePage := do
  validateReadStamp digests state read
  if limit = 1 ∧ after < read.commitCursor ∧ read.accumulatorRoot.isSome then
    authenticatedPointPage digests state read (after + 1)
  else changePage digests state read.commitCursor after limit (some read.scope)

/-- The changes after a cursor, up to the current head. -/
def changesSince (state : State) (after limit : Nat) (scope : Option ScopeId) :
    Except Error RuntimeChangePage :=
  changePage digests state state.cursor after limit scope

/-! ### What a page shows -/

def pageEnd (head after limit : Nat) : Nat :=
  if after < head then min head (after + limit) else after

def pageOf (log : List RuntimeChange) (head after limit : Nat) (scope : Option ScopeId) :
    RuntimeChangePage where
  requestedAfter := after
  throughCursor := pageEnd head after limit
  headCursor := head
  changes := (window log after (pageEnd head after limit)).filter
    fun change => scope.all (· = change.scope)

variable {externals : Externals} {state : State}

theorem Whole.change_at (h : Whole externals state) {cursor : Nat}
    (hcursor : cursor < state.log.length) :
    ∃ change, state.log[cursor]? = some change ∧
      state.logged.changes.find? (cursor + 1) = some change ∧ change.cursor = cursor + 1 ∧
      change.previousDigest = lastDigestOf none (state.log.take cursor) ∧
      change.verifyDigest externals.digests = true := by
  have hsplit : state.log.take cursor ++ state.log[cursor] :: state.log.drop (cursor + 1) =
      state.log := by
    rw [← drop_eq_getElem_cons hcursor, take_append_drop]
  have hchain := h.chain
  rw [← hsplit, chain_append, length_take, min_eq_left hcursor.le, Nat.zero_add] at hchain
  obtain ⟨hplace, hprevious, hdigest⟩ := hchain.2.1
  refine ⟨state.log[cursor], getElem?_eq_getElem hcursor, ?_, hplace, hprevious, hdigest⟩
  rw [← SortedMap.mem_toList_iff, h.logged, toList_changes_replay h.chain, ← hplace]
  exact mem_map_of_mem (f := fun change : RuntimeChange => (change.cursor, change))
    (getElem_mem hcursor)

theorem lastDigestOf_take_succ {log : List RuntimeChange} {cursor : Nat} {change : RuntimeChange}
    (h : log[cursor]? = some change) :
    lastDigestOf none (log.take (cursor + 1)) = some change.digest := by
  obtain ⟨hlt, rfl⟩ := List.getElem?_eq_some_iff.mp h
  rw [List.take_succ_eq_append_getElem hlt, lastDigestOf, List.getLast?_concat]
  rfl

/-- The changes at some places of a log can be read back. -/
def ReadBack (digests : Digests) (log : List RuntimeChange) (start stop : Nat) : Prop :=
  ∀ i, start ≤ i → i < stop → ∀ change ∈ log[i]?, change.Survives digests

theorem readBack_of_exact {log : List RuntimeChange} {k stop : Nat} (h : Exact digests (log.take k))
    (hstop : stop ≤ k) (start : Nat) : ReadBack digests log start stop := by
  intro i _ hi change hchange
  refine h change (mem_of_getElem? (i := i) ?_)
  rw [getElem?_take_of_lt (by omega)]
  exact hchange

theorem readBack_cons {log : List RuntimeChange} {start stop : Nat} (hlt : start < stop) :
    ReadBack digests log start stop ↔
      (∀ change ∈ log[start]?, change.Survives digests) ∧ ReadBack digests log (start + 1) stop := by
  constructor
  · intro h
    exact ⟨h start le_rfl hlt, fun i hi => h i (by omega)⟩
  · rintro ⟨hfirst, hrest⟩ i hi hstop
    rcases eq_or_lt_of_le hi with rfl | hi
    · exact hfirst
    · exact hrest i hi hstop

theorem Whole.priorDigest (h : Whole externals state) {after : Nat}
    (hafter : after ≤ state.log.length) {digest : Option String} :
    Store.priorDigest externals.digests state after = .ok digest ↔
      digest = lastDigestOf none (state.log.take after) ∧
        ReadBack externals.digests state.log (after - 1) after := by
  cases after with
  | zero => simp [Store.priorDigest, ReadBack, lastDigestOf, eq_comm]
  | succ after =>
    obtain ⟨change, hget, hfind, -, -, hdigest⟩ := h.change_at hafter
    rw [Store.priorDigest, if_neg (Nat.succ_ne_zero _), hfind, lastDigestOf_take_succ hget,
      Nat.add_sub_cancel, readBack_cons _ (Nat.lt_succ_self _), hget]
    simp only [bind_eq_ok, ensure_eq_ok, Option.mem_some_iff, forall_eq']
    constructor
    · rintro ⟨_, hreread, hprior⟩
      have hsurvives := (RuntimeChange.survives_iff hdigest).mpr hreread
      exact ⟨(Except.ok.inj hprior).symm, hsurvives, fun i hi hlt => by omega⟩
    · rintro ⟨rfl, hsurvives, -⟩
      exact ⟨(), (RuntimeChange.survives_iff hdigest).mp hsurvives, rfl⟩

def PageScan.at_ (log : List RuntimeChange) (scope : Option ScopeId) (after through : Nat) :
    PageScan where
  through
  previousDigest := lastDigestOf none (log.take through)
  selected := (window log after through).filter fun change => scope.all (· = change.scope)

theorem Whole.pageScan_read (h : Whole externals state) (scope : Option ScopeId)
    {after through : Nat} (hafter : after ≤ through) (hthrough : through < state.log.length)
    {scan : PageScan} :
    (PageScan.at_ state.log scope after through).read externals.digests state scope (through + 1) =
        .ok scan ↔ scan = PageScan.at_ state.log scope after (through + 1) ∧
      ∀ change ∈ state.log[through]?, change.Survives externals.digests := by
  obtain ⟨change, hget, hfind, hcursor, hprevious, hdigest⟩ := h.change_at hthrough
  have hselected : (window state.log after (through + 1)).filter
        (fun change => scope.all (· = change.scope)) =
      if scope.all (· = change.scope) then
        (window state.log after through).filter
          (fun change => scope.all (· = change.scope)) ++ [change]
      else (window state.log after through).filter
        (fun change => scope.all (· = change.scope)) := by
    rw [window_succ hafter hget, filter_append, filter_singleton]
    cases scope.all (· = change.scope) <;> simp
  rw [PageScan.read, hfind, hget]
  simp only [bind_eq_ok, ensure_eq_ok, Option.mem_some_iff, forall_eq']
  simp only [PageScan.at_, hselected, lastDigestOf_take_succ hget]
  constructor
  · rintro ⟨_, ⟨-, -, hreread⟩, hscan⟩
    have hsurvives := (RuntimeChange.survives_iff hdigest).mpr hreread
    rw [hsurvives] at hscan
    exact ⟨(Except.ok.inj hscan).symm, hsurvives⟩
  · rintro ⟨rfl, hsurvives⟩
    rw [RuntimeChange.Survives] at hsurvives
    rw [hsurvives]
    exact ⟨(), ⟨hcursor, hprevious, hdigest⟩, rfl⟩

theorem Whole.scanPage (h : Whole externals state) (scope : Option ScopeId) {after limit : Nat}
    {head through : Nat} (hhead : head ≤ state.log.length) (hafter : after ≤ through)
    (hthrough : through ≤ min head (after + limit)) {scan : PageScan} :
    scanPage externals.digests state scope after limit (List.range' (through + 1) (head - through))
        (PageScan.at_ state.log scope after through) = .ok scan ↔
      scan = PageScan.at_ state.log scope after (min head (after + limit)) ∧
        ReadBack externals.digests state.log through (min head (after + limit)) := by
  generalize hleft : head - through = left
  have hdone : ∀ {through}, through = min head (after + limit) →
      ((.ok (PageScan.at_ state.log scope after through) : Except Error PageScan) = .ok scan ↔
        scan = PageScan.at_ state.log scope after (min head (after + limit)) ∧
          ReadBack externals.digests state.log through (min head (after + limit))) := by
    rintro _ rfl
    rw [Except.ok.injEq, eq_comm, and_iff_left]
    exact fun i hi hlt => by omega
  induction left generalizing through with
  | zero => exact hdone (by omega)
  | succ left ih =>
    rw [range'_succ, Store.scanPage]
    have hshown : (PageScan.at_ state.log scope after through).through = through := rfl
    rw [hshown]
    by_cases hfull : limit ≤ through - after
    · rw [if_pos hfull]
      exact hdone (by omega)
    · rw [if_neg hfull, bind_eq_ok, readBack_cons _ (by omega)]
      simp only [h.pageScan_read scope hafter (by omega)]
      constructor
      · rintro ⟨_, ⟨rfl, hsurvives⟩, hrest⟩
        obtain ⟨hscan, hback⟩ := (ih (by omega) (by omega) (by omega)).mp hrest
        exact ⟨hscan, hsurvives, hback⟩
      · rintro ⟨hscan, hsurvives, hback⟩
        exact ⟨_, ⟨rfl, hsurvives⟩, (ih (by omega) (by omega) (by omega)).mpr ⟨hscan, hback⟩⟩

/-- A page shows its part of the log, if what it reads and the change before it can be read
back. -/
theorem Whole.changePage (h : Whole externals state) {head : Nat} (hhead : head ≤ state.log.length)
    (after : Nat) {limit : Nat} (hlimit : limit ≠ 0) (scope : Option ScopeId)
    {page : RuntimeChangePage} :
    Store.changePage externals.digests state head after limit scope = .ok page ↔
      page = pageOf state.log head after limit scope ∧ (after < head →
        ReadBack externals.digests state.log (after - 1) after ∧
        ReadBack externals.digests state.log after (pageEnd head after limit)) := by
  have hbound := h.bound
  rw [h.cursor] at hbound
  rw [Store.changePage, ensure, if_pos hlimit, ok_bind]
  by_cases hpast : head ≤ after
  · have hend : pageEnd head after limit = after := if_neg (by omega)
    rw [if_pos (.inr hpast), pageOf, hend, window_self, and_iff_left fun hlt => by omega]
    exact ⟨fun hpage => (Except.ok.inj hpage).symm, fun hpage => hpage ▸ rfl⟩
  · have hinside : ¬ (after = u64Max ∨ head ≤ after) := by omega
    have hend : pageEnd head after limit = min head (after + limit) := if_pos (by omega)
    have hstart : PageScan.mk after (lastDigestOf none (state.log.take after)) [] =
        PageScan.at_ state.log scope after after := by
      rw [PageScan.at_, window_self]
      rfl
    rw [if_neg hinside, pageOf, hend]
    simp only [bind_eq_ok, h.priorDigest (show after ≤ state.log.length by omega)]
    constructor
    · rintro ⟨_, ⟨rfl, hprior⟩, scan, hscan, hpage⟩
      rw [hstart, h.scanPage scope hhead le_rfl (by omega)] at hscan
      obtain ⟨rfl, hback⟩ := hscan
      exact ⟨(Except.ok.inj hpage).symm, fun _ => ⟨hprior, hback⟩⟩
    · rintro ⟨rfl, hback⟩
      obtain ⟨hprior, hback⟩ := hback (by omega)
      refine ⟨_, ⟨rfl, hprior⟩, PageScan.at_ state.log scope after (min head (after + limit)), ?_,
        rfl⟩
      rw [hstart, h.scanPage scope hhead le_rfl (by omega)]
      exact ⟨rfl, hback⟩

variable {read : ReadStamp}

theorem Whole.authenticatedPointPage (h : Whole externals state)
    (hvalid : Store.validateReadStamp externals.digests state read = .ok ()) {after : Nat}
    (hafter : after < read.commitCursor) {page : RuntimeChangePage} :
    Store.authenticatedPointPage externals.digests state read (after + 1) = .ok page ↔
      page = pageOf state.log read.commitCursor after 1 (some read.scope) ∧
        ReadBack externals.digests state.log after (after + 1) := by
  have hstamp := h.stampOf_of_validate hvalid
  have hlength := hstamp.cursor
  rw [length_take] at hlength
  have hretained := h.checkRetained ( take_prefix read.commitCursor _) hstamp.cursor
  have hlog : after < state.log.length := by omega
  obtain ⟨change, hget, hfind, hcursor, -, hdigest⟩ := h.change_at hlog
  have hinclusion : verifyInclusion externals.digests state read.commitCursor after change =
      .ok () := by
    simp only [verifyInclusion, bind_eq_ok, ensure_eq_ok, h.accumulator]
    exact ⟨(), hafter, (), ⟨hdigest, hcursor⟩, hget⟩
  have hend : pageEnd read.commitCursor after 1 = after + 1 := by
    rw [pageEnd, if_pos hafter]
    omega
  have hchanges : (window state.log after (after + 1)).filter
      (fun change => (some read.scope).all (· = change.scope)) =
      if change.scope = read.scope then [change] else [] := by
    rw [window_succ le_rfl hget, window_self, nil_append, filter_singleton]
    by_cases hscope : change.scope = read.scope
    · simp [hscope]
    · simp [hscope, Ne.symm hscope]
  have htree : stampTree externals.digests state read
      (externals.digests.root (state.log.take read.commitCursor)) = .ok () := by
    unfold stampTree
    split
    · split
      · rfl
      · exact hretained
    · exact hretained
  rw [Store.authenticatedPointPage, hstamp.root, pageOf, hend, hchanges,
    readBack_cons _ (Nat.lt_succ_self _), hget]
  dsimp only
  rw [htree, ok_bind, hfind]
  simp only [Nat.add_sub_cancel, bind_eq_ok, Option.mem_some_iff, forall_eq']
  constructor
  · rintro ⟨_, hproof, hpage⟩
    simp only [verifyInclusion, bind_eq_ok, ensure_eq_ok] at hproof
    obtain ⟨_, -, _, ⟨hreread, -⟩, -⟩ := hproof
    have hsurvives := (RuntimeChange.survives_iff hdigest).mpr hreread
    rw [hsurvives] at hpage
    exact ⟨(Except.ok.inj hpage).symm, hsurvives, fun i hi hlt => by omega⟩
  · rintro ⟨rfl, hsurvives, -⟩
    rw [RuntimeChange.Survives] at hsurvives
    rw [hsurvives]
    exact ⟨(), hinclusion, rfl⟩

section

variable (h : Whole externals state)
  (hvalid : Store.validateReadStamp externals.digests state read = .ok ()) (after : Nat)
  {limit : Nat} (hlimit : limit ≠ 0)

include h hvalid hlimit

theorem Whole.of_readChanges {page : RuntimeChangePage}
    (hpage : Store.readChanges externals.digests state read after limit = .ok page) :
    page = pageOf state.log read.commitCursor after limit (some read.scope) := by
  have hlength := (h.stampOf_of_validate hvalid).cursor
  rw [length_take] at hlength
  rw [Store.readChanges, hvalid, ok_bind] at hpage
  split at hpage
  · next hpoint =>
      obtain ⟨rfl, hafter, -⟩ := hpoint
      exact ((h.authenticatedPointPage hvalid hafter).mp hpage).1
  · exact ((h.changePage (by omega) after hlimit _).mp hpage).1

/-- Under a stamp that passes its check, every page of a positive limit can be read, if the
changes up to the stamp can. -/
theorem Whole.readChanges
    (hexact : Exact externals.digests (state.log.take read.commitCursor)) :
    Store.readChanges externals.digests state read after limit =
      .ok (pageOf state.log read.commitCursor after limit (some read.scope)) := by
  have hlength := (h.stampOf_of_validate hvalid).cursor
  rw [length_take] at hlength
  rw [Store.readChanges, hvalid, ok_bind]
  split
  · next hpoint =>
      obtain ⟨rfl, hafter, -⟩ := hpoint
      exact (h.authenticatedPointPage hvalid hafter).mpr
        ⟨rfl, readBack_of_exact _ hexact (by omega) _⟩
  · refine (h.changePage (by omega) after hlimit _).mpr ⟨rfl, fun hlt => ⟨?_, ?_⟩⟩
    · exact readBack_of_exact _ hexact hlt.le _
    · refine readBack_of_exact _ hexact ?_ _
      rw [pageEnd, if_pos hlt]
      exact Nat.min_le_left ..

end

/-! ### Pages that follow on each other -/

/-- The progress of a reader that continues where its last page ended, while the store takes
requests: the pages so far, the cursor reached and the changes shown. -/
inductive Paged (externals : Externals) (read : ReadStamp) :
    State → Nat → Nat → List RuntimeChange → Prop
  | start {state : State} : Reachable externals state → Paged externals read state 0 0 []
  | request {state : State} {pages after : Nat} {changes : List RuntimeChange} {request : Request}
      {writes : List Write} : Paged externals read state pages after changes →
      request.prepare externals state = .ok writes →
      Paged externals read (state.applyAll writes) pages after changes
  | page {state : State} {pages after limit : Nat} {changes : List RuntimeChange}
      {page : RuntimeChangePage} : Paged externals read state pages after changes → 0 < limit →
      readChanges externals.digests state read after limit = .ok page →
      Paged externals read state (pages + 1) page.throughCursor (changes ++ page.changes)

variable {pages after : Nat} {changes : List RuntimeChange}

theorem Paged.reachable (h : Paged externals read state pages after changes) :
    Reachable externals state := by
  induction h with
  | start hstate => exact hstate
  | request _ hprepare ih => exact ih.step hprepare
  | page _ _ _ ih => exact ih

theorem validate_of_readChanges {limit : Nat} {page : RuntimeChangePage}
    (h : readChanges externals.digests state read after limit = .ok page) :
    validateReadStamp externals.digests state read = .ok () := by
  rw [readChanges, bind_eq_ok] at h
  obtain ⟨_, hvalid, -⟩ := h
  exact hvalid

theorem Whole.log_prefix_step (h : Whole externals state) {request : Request}
    {writes : List Write} (hprepare : request.prepare externals state = .ok writes) :
    ∃ more, (state.applyAll writes).log = state.log ++ more := by
  rcases Request.prepare_cases hprepare with ⟨commit, read, audit, outcome, prepared, more,
    hcommit, rfl⟩ | ⟨more, rfl⟩ | ⟨more, rfl⟩
  · obtain ⟨_, _, _, _, haccepted⟩ := prepareSemanticCommit_eq_ok hcommit
    rw [State.applyAll_append, State.applyAll_map_control]
    exact ⟨_, (haccepted.log_eq h).1⟩
  · rw [State.applyAll_map_claim]
    exact ⟨[], (append_nil _).symm⟩
  · rw [State.applyAll_map_control]
    exact ⟨[], (append_nil _).symm⟩

/-- What a reader has seen: everything up to where it is, and at least one change of the log
for every page. -/
structure Paged.Seen (read : ReadStamp) (state : State) (pages after : Nat)
    (changes : List RuntimeChange) : Prop where
  retained : after ≤ state.log.length
  bound : after ≤ read.commitCursor
  progress : min pages read.commitCursor ≤ after
  shown : changes = (window state.log 0 after).filter fun change => change.scope = read.scope

theorem Paged.seen (h : Paged externals read state pages after changes) :
    Paged.Seen read state pages after changes := by
  induction h with
  | start _ => exact ⟨Nat.zero_le _, Nat.zero_le _, by simp, by simp⟩
  | request hbefore hprepare ih =>
    obtain ⟨more, hlog⟩ := hbefore.reachable.whole.log_prefix_step hprepare
    refine ⟨?_, ih.bound, ih.progress, ?_⟩
    · rw [hlog, length_append]
      exact ih.retained.trans (Nat.le_add_right ..)
    · rw [hlog, window_append_log ih.retained]
      exact ih.shown
  | @page state pages after limit changes page hbefore hlimit hpage ih =>
    have hwhole := hbefore.reachable.whole
    have hvalid := validate_of_readChanges hpage
    have hlength := (hwhole.stampOf_of_validate hvalid).cursor
    rw [length_take] at hlength
    obtain rfl := hwhole.of_readChanges hvalid after hlimit.ne' hpage
    have hprogress := ih.progress
    have hbound := ih.bound
    have hend : after ≤ pageEnd read.commitCursor after limit ∧
        pageEnd read.commitCursor after limit ≤ read.commitCursor ∧
        min (pages + 1) read.commitCursor ≤ pageEnd read.commitCursor after limit := by
      rw [pageEnd]
      split <;> omega
    refine ⟨?_, hend.2.1, hend.2.2, ?_⟩
    · exact hend.2.1.trans (by omega)
    · rw [ih.shown, pageOf, ← window_append_window state.log (Nat.zero_le after) hend.1,
        filter_append]
      congr 1
      refine filter_congr fun change _ => ?_
      simp [eq_comm]

theorem Whole.filter_window (h : Whole externals state) (scope : ScopeId) (k : Nat) :
    (window state.log 0 k).filter (fun change => change.scope = scope) =
      visibleChanges state.log scope k := by
  rw [window_zero, h.chain.take_eq_filter, filter_filter, visibleChanges]
  refine filter_congr fun change _ => ?_
  rw [Nat.zero_add, Bool.and_comm]

def guest : ScopeId := ⟨"guest", by decide⟩

def interleavedScopes : List Request :=
  [.plain (proposal 0 [.claim (boilsAt "99")]),
    .plain { proposal 1 [.claim (boilsAt "100")] with scope := guest },
    .plain (proposal 2 [.claim (boilsAt "101")])]

end Rrflow.Store

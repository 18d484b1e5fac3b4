import Rrflow.Lib.Overwrite
import Rrflow.Store.Invariant

/-!
What the claim log gives back.

The claim spaces are a function of the list of all claims in the order of their
sequence numbers, each as its text is read back. A claim is stored once under its
subject, predicate, start and transaction time, and the sequence index points there; so
a range of the log is read back with every claim replaced by the last one that has its
key.
-/

namespace Rrflow.Store

open Kernel Checks Overwrite List RuntimeMutation

variable {log : List Claim} {spaces : ClaimSpaces} {state : State} {writes : List ClaimWrite}

structure ClaimSpaces.Holds (spaces : ClaimSpaces) (log : List Claim) : Prop where
  claims : spaces.claims = table claimKey log
  sequence : spaces.sequence.toList = log.mapIdx fun i claim => (i + 1, claimKey claim)
  watermark : spaces.watermark = log.length

theorem ClaimSpaces.holds_empty : ClaimSpaces.empty.Holds [] := ⟨rfl, rfl, rfl⟩

theorem ClaimSpaces.foldl_place (hclaims : spaces.claims = table claimKey log)
    (hsequence : spaces.sequence.toList = log.mapIdx fun i claim => (i + 1, claimKey claim))
    (more : List Claim) :
    (more.foldl place (spaces, log.length)).1.claims =
      table claimKey (log ++ more.map Claim.stored) ∧
    (more.foldl place (spaces, log.length)).1.sequence.toList =
      (log ++ more.map Claim.stored).mapIdx (fun i claim => (i + 1, claimKey claim)) ∧
    (more.foldl place (spaces, log.length)).2 = (log ++ more.map Claim.stored).length := by
  induction more generalizing spaces log with
  | nil => simpa using ⟨hclaims, hsequence⟩
  | cons claim rest ih =>
    have hplaced : place (spaces, log.length) claim =
        ({ spaces with
            claims := spaces.claims.insert (claimKey claim) claim.stored
            sequence := spaces.sequence.insert (log.length + 1) (claimKey claim) },
          (log ++ [claim.stored]).length) := by
      rw [length_append]
      rfl
    rw [foldl_cons, hplaced, map_cons, append_cons log claim.stored (rest.map Claim.stored)]
    refine ih ?_ ?_
    · rw [table_append, ← hclaims]
      rfl
    · have hlast : ∀ row ∈ spaces.sequence.toList, row.1 < log.length + 1 := by
        intro row hrow
        rw [hsequence, mem_mapIdx] at hrow
        obtain ⟨i, hi, rfl⟩ := hrow
        exact Nat.succ_lt_succ hi
      rw [SortedMap.toList_insert_of_forall_lt hlast, hsequence, mapIdx_concat]
      rfl

theorem ClaimSpaces.exists_holds (log : List Claim) :
    ∃ spaces : ClaimSpaces, spaces.Holds (log.map Claim.stored) := by
  obtain ⟨hclaims, hsequence, hnumber⟩ := foldl_place holds_empty.claims holds_empty.sequence log
  exact ⟨{ (log.foldl place (ClaimSpaces.empty, 0)).1 with watermark := log.length },
    hclaims, hsequence, (length_map ..).symm⟩

theorem encodeClaims_eq_ok {sequence sequence' : Nat} {claims : List Claim}
    (h : encodeClaims sequence claims = .ok (sequence', writes)) (spaces : ClaimSpaces) :
    (spaces.applyAll writes, sequence') = claims.foldl ClaimSpaces.place (spaces, sequence) := by
  rw [encodeClaims] at h
  -- the writes made so far, in general
  generalize hstate : (sequence, ([] : List ClaimWrite)) = state at h
  have hstart : (spaces, sequence) = (spaces.applyAll state.2, state.1) := by
    subst hstate
    rfl
  rw [hstart]
  clear hstate hstart
  induction claims generalizing state with
  | nil =>
    obtain rfl := Except.ok.inj h
    rfl
  | cons claim rest ih =>
    simp only [foldlM_cons, bind_eq_ok, encodeClaim] at h
    obtain ⟨middle, ⟨row, ⟨number, hnumber, hrow⟩, hmiddle⟩, hrest⟩ := h
    obtain ⟨-, rfl⟩ := next_eq_ok.mp hnumber
    obtain rfl := Except.ok.inj hrow
    obtain rfl := Except.ok.inj hmiddle
    rw [ih _ hrest, foldl_cons]
    congr 1
    simp [ClaimSpaces.place, ClaimSpaces.applyAll, foldl_append]

/-! ### Runs -/

/-- The claims that a request gets sequence numbers for. -/
def Request.claims (state : State) : Request → List Claim
  | .commit proposed _ _ => proposed.mutations.filterMap claim?
  | .append claims => claims
  | .appendIdempotent key _ claims =>
    if (state.claims.receipts.find? key).isSome then [] else claims
  | .control .. => []
  | .controlBatch _ => []
  | .commitWithControl proposed _ => proposed.mutations.filterMap claim?

/-- The states that requests lead to, with all claims in the order of their numbers. -/
inductive Logs (externals : Externals) : List Claim → State → Prop
  | empty : Logs externals [] State.empty
  | step {log : List Claim} {state : State} {request : Request} {writes : List Write} :
      Logs externals log state → request.prepare externals state = .ok writes →
      Logs externals (log ++ request.claims state) (state.applyAll writes)

variable {externals : Externals}

theorem Logs.reachable (h : Logs externals log state) : Reachable externals state := by
  induction h with
  | empty => exact .empty
  | step _ hprepare ih => exact ih.step hprepare

theorem Request.valid_claims {request : Request} {writes : List Write}
    (h : request.prepare externals state = .ok writes) :
    ∀ claim ∈ request.claims state, claim.validate = .ok () := by
  cases Request.prepared h with
  | commit hcommit | commitWithControl hcommit =>
    obtain ⟨_, _, _, _, haccepted⟩ := prepareSemanticCommit_eq_ok hcommit
    exact haccepted.claims
  | append happend =>
    simp only [appendBatch, bind_eq_ok, forM_eq_ok, lift_eq_ok] at happend
    obtain ⟨_, hvalid, -⟩ := happend
    exact hvalid
  | appendIdempotent happend =>
    simp only [appendBatchIdempotent, bind_eq_ok, forM_eq_ok, lift_eq_ok] at happend
    obtain ⟨_, -, _, -, _, hvalid, -⟩ := happend
    intro claim hclaim
    rw [Request.claims] at hclaim
    split at hclaim
    · cases hclaim
    · exact hvalid claim hclaim
  | control | controlBatch =>
    intro claim hclaim
    cases hclaim

theorem Logs.valid (h : Logs externals log state) : ∀ claim ∈ log, claim.validate = .ok () := by
  induction h with
  | empty => nofun
  | step _ hprepare ih =>
    intro claim hclaim
    rcases mem_append.mp hclaim with hclaim | hclaim
    · exact ih claim hclaim
    · exact Request.valid_claims hprepare claim hclaim

theorem ClaimSpaces.Holds.commit {state : State} {log : List Claim} {commit : RuntimeCommit}
    {outcome : RuntimeCommitOutcome} {writes : List Write} {accumulator : LogLeaves}
    {schema : Option RuntimeSchemaRegistry} {audit : AuditEnvelope}
    {indexWrites : List IndexWrite}
    (h : state.claims.Holds log)
    (haccepted : Accepted externals state commit outcome writes accumulator schema audit indexWrites) :
    (state.applyAll writes).claims.Holds
      (log ++ (commit.mutations.filterMap claim?).map Claim.stored) := by
  obtain ⟨hclaims, hsequence, hnumber⟩ := foldl_place h.claims h.sequence
    (commit.mutations.filterMap claim?)
  rw [haccepted.effect]
  rw [State.claimsAfter, h.watermark]
  by_cases hany : commit.mutations.any isClaim = true
  · rw [if_pos hany]
    exact ⟨hclaims, hsequence, hnumber⟩
  · rw [if_neg hany]
    have hnil : commit.mutations.filterMap claim? = [] := by
      rw [filterMap_eq_nil_iff]
      intro mutation hmem
      have hnot : mutation.isClaim = false := by
        simpa using fun h => hany (any_eq_true.mpr ⟨mutation, hmem, h⟩)
      cases mutation <;> first | rfl | cases hnot
    rw [hnil, map_nil, append_nil]
    exact h

variable {claims : List Claim}

theorem ClaimSpaces.Holds.encoded {sequence : Nat} {more : List ClaimWrite}
    (h : spaces.Holds log) (hencode : encodeClaims spaces.watermark claims = .ok (sequence, writes))
    (hmore : ∀ spaces : ClaimSpaces, (spaces.applyAll more).claims = spaces.claims ∧
      (spaces.applyAll more).sequence = spaces.sequence ∧
      (spaces.applyAll more).watermark = sequence) :
    (spaces.applyAll (writes ++ more)).Holds (log ++ claims.map Claim.stored) := by
  rw [h.watermark] at hencode
  have hplaced := encodeClaims_eq_ok hencode spaces
  obtain ⟨hclaims, hsequence, hnumber⟩ := foldl_place h.claims h.sequence claims
  rw [← hplaced] at hclaims hsequence hnumber
  have happend : spaces.applyAll (writes ++ more) = (spaces.applyAll writes).applyAll more :=
    foldl_append ..
  obtain ⟨hsame, hindex, hwatermark⟩ := hmore (spaces.applyAll writes)
  rw [happend]
  exact ⟨hsame.trans hclaims, (congrArg SortedMap.toList hindex).trans hsequence,
    hwatermark.trans hnumber⟩

theorem ClaimSpaces.Holds.append {outcome : AppendOutcome} (h : spaces.Holds log)
    (happend : appendBatch spaces claims = .ok (outcome, writes)) :
    (spaces.applyAll writes).Holds (log ++ claims.map Claim.stored) := by
  simp only [appendBatch, bind_eq_ok] at happend
  obtain ⟨_, -, happend⟩ := happend
  split at happend
  · next hnil =>
      obtain ⟨-, rfl⟩ := Prod.mk.inj (Except.ok.inj happend)
      rw [hnil, map_nil, append_nil]
      exact h
  · rw [bind_eq_ok] at happend
    obtain ⟨⟨sequence, rows⟩, hencode, happend⟩ := happend
    obtain ⟨-, rfl⟩ := Prod.mk.inj (Except.ok.inj happend)
    exact h.encoded hencode fun _ => ⟨rfl, rfl, rfl⟩

theorem ClaimSpaces.Holds.appendIdempotent {key operationSha256 : String}
    {outcome : IdempotentAppendOutcome} (h : spaces.Holds log)
    (happend : appendBatchIdempotent spaces key operationSha256 claims = .ok (outcome, writes)) :
    (spaces.applyAll writes).Holds
      (log ++ (if (spaces.receipts.find? key).isSome then [] else claims).map Claim.stored) := by
  simp only [appendBatchIdempotent, bind_eq_ok] at happend
  obtain ⟨_, -, _, -, _, -, happend⟩ := happend
  cases hreceipt : spaces.receipts.find? key with
  | some accepted =>
    rw [hreceipt, bind_eq_ok] at happend
    obtain ⟨_, -, happend⟩ := happend
    obtain ⟨-, rfl⟩ := Prod.mk.inj (Except.ok.inj happend)
    rw [Option.isSome_some, if_pos rfl, map_nil, append_nil]
    exact h
  | none =>
    rw [hreceipt, bind_eq_ok] at happend
    obtain ⟨⟨sequence, rows⟩, hencode, happend⟩ := happend
    obtain ⟨-, rfl⟩ := Prod.mk.inj (Except.ok.inj happend)
    exact h.encoded hencode fun _ => ⟨rfl, rfl, rfl⟩

theorem Logs.holds (h : Logs externals log state) : state.claims.Holds (log.map Claim.stored) := by
  induction h with
  | empty => exact ClaimSpaces.holds_empty
  | @step log state request writes _ hprepare ih =>
    rw [map_append]
    cases Request.prepared hprepare with
    | commit hcommit =>
      obtain ⟨_, _, _, _, haccepted⟩ := prepareSemanticCommit_eq_ok hcommit
      exact ih.commit haccepted
    | append happend =>
      rw [State.applyAll_map_claim]
      exact ih.append happend
    | appendIdempotent happend =>
      rw [State.applyAll_map_claim]
      exact ih.appendIdempotent happend
    | control | controlBatch =>
      rw [State.applyAll_map_control, Request.claims, map_nil, append_nil]
      exact ih
    | commitWithControl hcommit =>
      obtain ⟨_, _, _, _, haccepted⟩ := prepareSemanticCommit_eq_ok hcommit
      rw [State.applyAll_append, State.applyAll_map_control]
      exact ih.commit haccepted

theorem filter_mapIdx {α β : Type} (f : α → β) (before inside after : List α) :
    (((before ++ inside) ++ after).mapIdx fun i a => (i + 1, f a)).filter (fun row =>
        before.length < row.1 ∧ row.1 ≤ (before ++ inside).length) =
      inside.mapIdx fun i a => (before.length + i + 1, f a) := by
  rw [mapIdx_append, mapIdx_append, filter_append, filter_append]
  have hbefore : (before.mapIdx fun i a => (i + 1, f a)).filter (fun row =>
      before.length < row.1 ∧ row.1 ≤ (before ++ inside).length) = [] := by
    rw [filter_eq_nil_iff]
    intro row hrow
    obtain ⟨i, hi, rfl⟩ := mem_mapIdx.mp hrow
    simp only [decide_eq_true_eq]
    omega
  have hafter : (after.mapIdx fun i a => (i + (before ++ inside).length + 1, f a)).filter
      (fun row => before.length < row.1 ∧ row.1 ≤ (before ++ inside).length) = [] := by
    rw [filter_eq_nil_iff]
    intro row hrow
    obtain ⟨i, hi, rfl⟩ := mem_mapIdx.mp hrow
    simp only [decide_eq_true_eq]
    omega
  have hinside : (inside.mapIdx fun i a => (i + before.length + 1, f a)).filter
      (fun row => before.length < row.1 ∧ row.1 ≤ (before ++ inside).length) =
      inside.mapIdx fun i a => (i + before.length + 1, f a) := by
    rw [filter_eq_self]
    intro row hrow
    obtain ⟨i, hi, rfl⟩ := mem_mapIdx.mp hrow
    simp only [decide_eq_true_eq, length_append]
    omega
  rw [hbefore, hafter, hinside, nil_append, append_nil]
  simp only [Nat.add_comm]

/-- The rows of an interval are resolved one by one, as long as the number after the
last one is not beyond the range of numbers. -/
theorem foldlM_claimAt (h : spaces.Holds log) (start last : Nat) {claims : List Claim}
    (hclaims : ∀ claim ∈ claims, claim ∈ log) (found : List Claim)
    (hbound : start + found.length + claims.length < u64Max) :
    (claims.mapIdx fun i claim => (start + found.length + i + 1, claimKey claim)).foldlM
        (claimAt spaces start last) found =
      .ok (found ++ claims.map (current claimKey log)) := by
  induction claims generalizing found with
  | nil =>
    rw [map_nil, append_nil]
    rfl
  | cons claim rest ih =>
    have hrow : spaces.claims.find? (claimKey claim) = some (current claimKey log claim) := by
      rw [h.claims, find?_table]
      exact last_of_mem claimKey (hclaims claim (mem_cons_self ..))
    have hstep : claimAt spaces start last found (start + found.length + 0 + 1, claimKey claim) =
        .ok (found ++ [current claimKey log claim]) := by
      rw [length_cons] at hbound
      have hexpected : start + found.length + 0 + 1 = start + 1 + found.length := by omega
      have hroom : start + 1 + found.length < u64Max := by omega
      simp [claimAt, hexpected, hrow, ensure, hroom, bind, Except.bind, pure, Except.pure]
    rw [mapIdx_cons, foldlM_cons, hstep]
    have hrest := ih (fun other hother => hclaims other (mem_cons_of_mem _ hother))
      (found ++ [current claimKey log claim]) (by
        rw [length_append, length_singleton]
        rw [length_cons] at hbound
        omega)
    rw [length_append, length_singleton] at hrest
    have hshift : (rest.mapIdx fun i other => (start + found.length + (i + 1) + 1, claimKey other)) =
        rest.mapIdx fun i other => (start + (found.length + 1) + i + 1, claimKey other) := by
      congr 1
      funext i other
      congr 1
      omega
    show (rest.mapIdx _).foldlM _ _ = _
    rw [hshift, hrest, map_cons, append_assoc]
    rfl

/-- A range of the log is read back as its claims are stored now. -/
theorem claimsInRange_eq (h : spaces.Holds log) {start stop : Nat}
    (hbound : min stop log.length < u64Max) :
    claimsInRange spaces start stop =
      .ok (((log.take stop).drop start).map (current claimKey log)) := by
  unfold claimsInRange
  rw [h.watermark]
  dsimp only
  split
  · next hempty =>
      have hnil : (log.take stop).drop start = [] := by
        rw [drop_eq_nil_iff, length_take]
        omega
      rw [hnil]
      rfl
  · next hrange =>
      have hstart : start ≤ min stop log.length := by omega
      have htake : log.take (min stop log.length) = log.take stop := by
        rw [take_eq_take_iff]
        omega
      -- the log is what lies before, in and after the interval
      have hbefore : ((log.take stop).take start).length = start := by
        rw [length_take, length_take]
        omega
      have hinside : ((log.take stop).take start ++ (log.take stop).drop start).length =
          min stop log.length := by
        rw [take_append_drop, length_take]
      have hsplit : log = ((log.take stop).take start ++ (log.take stop).drop start) ++
          log.drop stop := by
        rw [take_append_drop, take_append_drop]
      have hrows : spaces.sequence.toList.filter (fun row =>
            start < row.1 ∧ row.1 ≤ min stop log.length) =
          ((log.take stop).drop start).mapIdx fun i claim => (start + i + 1, claimKey claim) := by
        have hfilter := filter_mapIdx claimKey ((log.take stop).take start)
          ((log.take stop).drop start) (log.drop stop)
        rw [hbefore, hinside, ← hsplit] at hfilter
        rw [h.sequence]
        exact hfilter
      have hlength : ((log.take stop).drop start).length = min stop log.length - start := by
        rw [length_drop, length_take]
      have hmem : ∀ claim ∈ (log.take stop).drop start, claim ∈ log := fun claim hclaim =>
        mem_of_mem_take (mem_of_mem_drop hclaim)
      have hfold := foldlM_claimAt h start (min stop log.length) hmem [] (by
        rw [hlength, length_nil]
        omega)
      rw [length_nil, Nat.add_zero, nil_append] at hfold
      rw [hrows, hfold]
      simp [ensure, bind, Except.bind, pure, Except.pure]

/-- The last number of all cannot be read: its successor is out of range. -/
theorem claimsInRange_full (h : spaces.Holds log) {start : Nat} (hstart : start < u64Max)
    (hfull : u64Max ≤ log.length) :
    claimsInRange spaces start log.length = .error .sequenceOverflow := by
  have hlt : u64Max - 1 < log.length := by omega
  have hbefore : (log.take start).length = start := by
    rw [length_take]
    omega
  have hinside : ((log.take (u64Max - 1)).drop start).length = u64Max - 1 - start := by
    rw [length_drop, length_take]
    omega
  -- the interval is what can be read, the claim with the last number, and the rest
  have hdrop : log.drop start = (log.take (u64Max - 1)).drop start ++
      log[u64Max - 1] :: log.drop (u64Max - 1 + 1) := by
    rw [← drop_eq_getElem_cons hlt, ← drop_append_of_le_length (by
      rw [length_take]
      omega), take_append_drop]
  have hmem : ∀ claim ∈ (log.take (u64Max - 1)).drop start, claim ∈ log := fun claim hclaim =>
    mem_of_mem_take (mem_of_mem_drop hclaim)
  have hfold := foldlM_claimAt h start log.length hmem [] (by
    rw [hinside, length_nil]
    omega)
  rw [length_nil, Nat.add_zero, nil_append] at hfold
  have hnext : ∀ found : List Claim, found.length = u64Max - 1 - start →
      claimAt spaces start log.length found
        (start + (0 + (u64Max - 1 - start)) + 1, claimKey log[u64Max - 1]) =
        .error .sequenceOverflow := by
    intro found hfound
    have hrow : spaces.claims.find? (claimKey log[u64Max - 1]) =
        some (current claimKey log log[u64Max - 1]) := by
      rw [h.claims, find?_table]
      exact last_of_mem claimKey (getElem_mem hlt)
    have hexpected : start + 1 + found.length = u64Max := by omega
    have hnumber : start + (0 + (u64Max - 1 - start)) + 1 = u64Max := by omega
    rw [hnumber]
    simp [claimAt, hexpected, hrow, ensure, bind, Except.bind]
  have hrows : spaces.sequence.toList.filter (fun row => start < row.1 ∧ row.1 ≤ log.length) =
      (log.drop start).mapIdx fun i claim => (start + i + 1, claimKey claim) := by
    have hfilter := filter_mapIdx claimKey (log.take start) (log.drop start) []
    rw [append_nil, take_append_drop, hbefore] at hfilter
    rw [h.sequence]
    exact hfilter
  unfold claimsInRange
  rw [h.watermark]
  dsimp only
  rw [if_neg (by omega), Nat.min_self, hrows, hdrop, mapIdx_append, mapIdx_cons,
    hinside, foldlM_append, hfold, bind_assoc]
  show (List.foldlM (claimAt spaces start log.length) _ (_ :: _) >>= _) = _
  rw [foldlM_cons, hnext _ (by rw [length_map, hinside])]
  rfl

def logRun (externals : Externals) (requests : List Request) : Except Error (List Claim × State) :=
  requests.foldlM (fun (run : List Claim × State) request => do
    let writes ← request.prepare externals run.2
    return (run.1 ++ request.claims run.2, run.2.applyAll writes)) ([], State.empty)

theorem logs_logRun {requests : List Request} {run : List Claim × State}
    (h : logRun externals requests = .ok run) : Logs externals run.1 run.2 := by
  refine foldlM_invariant (P := fun run => Logs externals run.1 run.2) h .empty ?_
  intro run request _ after hstep hlogs
  obtain ⟨writes, hprepare, hafter⟩ := bind_eq_ok.mp hstep
  cases hafter
  exact hlogs.step hprepare

end Rrflow.Store

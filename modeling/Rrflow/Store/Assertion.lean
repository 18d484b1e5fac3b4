import Rrflow.Store.ClaimSource

/-!
Asserting a claim.

An assertion looks up the claim in force at its start. If that one began earlier, it is
retired there and the new claim is appended as its successor; otherwise the new claim is
appended alone. A claim answers at its start if it is the newest correction of that start,
so the assertion fails to answer exactly if a later transaction time is already recorded
for its start.
-/

namespace Rrflow.Store

open Kernel Checks Overwrite List SortedMap

variable {externals : Externals}

variable {other a b : Claim}

/-- The retirement of a claim and its successor, to be appended together. -/
def supersede (digest : Claim → String) (previous successor : Claim) :
    Except Kernel.Error (List Claim) := do
  ensure (previous.subject = successor.subject ∧ previous.predicate = successor.predicate)
    .supersessionPairMismatch
  ensure (previous.validFrom < successor.validFrom ∧ previous.txTime < successor.txTime)
    .invalidSupersessionOrder
  let previousId := digest previous
  let retirement :=
    { previous with
      validTo := some successor.validFrom, txTime := successor.txTime, supersedes := some previousId }
  let successor := { successor with supersedes := some previousId }
  retirement.validate
  successor.validate
  return [retirement, successor]

def ClaimSpaces.asOf (spaces : ClaimSpaces) (subject : Subject) (predicate : Predicate)
    (at_ : Nat) : Option Claim :=
  MemoryClaims.asOf ⟨spaces.claims⟩ subject predicate at_

def assertClaim (digest : Claim → String) (spaces : ClaimSpaces) (claim : Claim) :
    Except Error (AppendOutcome × List ClaimWrite) :=
  match spaces.asOf claim.subject claim.predicate claim.validFrom with
  | some previous =>
    if previous.validFrom < claim.validFrom then do
      let pair ← lift (supersede digest previous claim)
      appendBatch spaces pair
    else appendBatch spaces [claim]
  | none => appendBatch spaces [claim]

/-! ### What is in force -/

variable {log : List Claim} {subject : Subject} {predicate : Predicate} {start at_ : Nat}
  {claim : Claim}

def Claim.At (claim : Claim) (subject : Subject) (predicate : Predicate) (start : Nat) : Prop :=
  claim.subject = subject ∧ claim.predicate = predicate ∧ claim.validFrom = start

structure NewestAt (log : List Claim) (subject : Subject) (predicate : Predicate) (start : Nat)
    (claim : Claim) : Prop where
  stored : last claimKey log (claimKey claim) = some claim
  at_ : Claim.At claim subject predicate start
  newest : ∀ other ∈ log, Claim.At other subject predicate start → other.txTime ≤ claim.txTime

/-- The claim in force: the newest correction of its start, while those of later starts are
not valid. -/
structure Answers (log : List Claim) (subject : Subject) (predicate : Predicate) (at_ : Nat)
    (claim : Claim) : Prop where
  newest : NewestAt log subject predicate claim.validFrom claim
  valid : claim.validAt at_ = true
  later : ∀ start > claim.validFrom, ∀ other, NewestAt log subject predicate start other →
    other.validAt at_ = false

theorem claimKey_eq_of_at (ha : Claim.At a subject predicate start)
    (hb : Claim.At b subject predicate start) (htx : a.txTime = b.txTime) :
    claimKey a = claimKey b := by
  obtain ⟨rfl, rfl, rfl⟩ := ha
  obtain ⟨hsubject, hpredicate, hstart⟩ := hb
  rw [claimKey, claimKey, hsubject, hpredicate, hstart, htx]

theorem claimKey_inj (h : claimKey a = claimKey b) :
    a.subject = b.subject ∧ a.predicate = b.predicate ∧ a.validFrom = b.validFrom ∧
      a.txTime = b.txTime := by
  simpa [claimKey] using h

theorem NewestAt.mem (h : NewestAt log subject predicate start claim) : claim ∈ log :=
  (mem_of_last h.stored).1

theorem NewestAt.unique (ha : NewestAt log subject predicate start a)
    (hb : NewestAt log subject predicate start b) : a = b := by
  have htx : a.txTime = b.txTime :=
    le_antisymm (hb.newest a ha.mem ha.at_) (ha.newest b hb.mem hb.at_)
  have hkey := claimKey_eq_of_at ha.at_ hb.at_ htx
  exact Option.some.inj (ha.stored.symm.trans (hkey ▸ hb.stored))

theorem newestAt_concat (hat : Claim.At claim subject predicate start)
    (hnewest : ∀ other ∈ log, Claim.At other subject predicate start →
      other.txTime ≤ claim.txTime) :
    NewestAt (log ++ [claim]) subject predicate start claim := by
  refine ⟨by rw [last_concat, if_pos rfl], hat, fun other hother hotherAt => ?_⟩
  rcases mem_append.mp hother with hother | hother
  · exact hnewest other hother hotherAt
  · rw [mem_singleton.mp hother]

/-- A claim that is older, or of another start, leaves the newest one. -/
theorem NewestAt.concat (h : NewestAt log subject predicate start claim)
    (hother : Claim.At other subject predicate start → other.txTime < claim.txTime) :
    NewestAt (log ++ [other]) subject predicate start claim := by
  have hkey : claimKey other ≠ claimKey claim := by
    intro hkey
    obtain ⟨hsubject, hpredicate, hstart, htx⟩ := claimKey_inj hkey
    obtain ⟨rfl, rfl, rfl⟩ := h.at_
    exact absurd htx (hother ⟨hsubject, hpredicate, hstart⟩).ne
  refine ⟨by rw [last_concat, if_neg hkey]; exact h.stored, h.at_, fun a ha haAt => ?_⟩
  rcases mem_append.mp ha with ha | ha
  · exact h.newest a ha haAt
  · rw [mem_singleton.mp ha] at haAt ⊢
    exact (hother haAt).le

theorem newestAt_concat_iff (hother : ¬ Claim.At other subject predicate start) :
    NewestAt (log ++ [other]) subject predicate start claim ↔
      NewestAt log subject predicate start claim := by
  refine ⟨fun h => ⟨?_, h.at_, fun a ha => h.newest a (mem_append_left _ ha)⟩,
    fun h => h.concat fun hat => absurd hat hother⟩
  have hstored := h.stored
  rw [last_concat] at hstored
  split at hstored
  · next hkey =>
      obtain rfl := Option.some.inj hstored
      exact absurd h.at_ hother
  · exact hstored

theorem exists_newestAt (hmem : other ∈ log) (hat : Claim.At other subject predicate start) :
    ∃ claim, NewestAt log subject predicate start claim := by
  induction log using List.reverseRecOn generalizing other with
  | nil => cases hmem
  | append_singleton log claim ih =>
    by_cases hclaim : Claim.At claim subject predicate start
    · by_cases hnewer : ∃ newer ∈ log, Claim.At newer subject predicate start ∧
          claim.txTime < newer.txTime
      · obtain ⟨newer, hmem, hat, hlt⟩ := hnewer
        obtain ⟨newest, hnewest⟩ := ih hmem hat
        exact ⟨newest, hnewest.concat fun _ => hlt.trans_le (hnewest.newest newer hmem hat)⟩
      · refine ⟨claim, newestAt_concat hclaim fun other hother hotherAt => ?_⟩
        exact not_lt.mp fun hlt => hnewer ⟨other, hother, hotherAt, hlt⟩
    · rcases mem_append.mp hmem with hmem | hmem
      · obtain ⟨newest, hnewest⟩ := ih hmem hat
        exact ⟨newest, (newestAt_concat_iff hclaim).mpr hnewest⟩
      · rw [mem_singleton.mp hmem] at hat
        exact absurd hat hclaim

/-! ### Resolution of the stored claims -/

section Resolution

variable {spaces : ClaimSpaces}

section

variable (h : spaces.Holds log)

include h

theorem ClaimSpaces.Holds.pairwise_values :
    spaces.claims.values.Pairwise fun a b => claimKey a < claimKey b := by
  refine SortedMap.pairwise_values fun key claim hfind => ?_
  rw [h.claims, find?_table] at hfind
  exact (mem_of_last hfind).2

theorem ClaimSpaces.Holds.mem_values :
    claim ∈ spaces.claims.values ↔ last claimKey log (claimKey claim) = some claim := by
  rw [← find?_table, ← h.claims, values, mem_map]
  constructor
  · rintro ⟨⟨key, stored⟩, hentry, rfl⟩
    rw [mem_toList_iff] at hentry
    have hkey : claimKey stored = key := by
      rw [h.claims, find?_table] at hentry
      exact (mem_of_last hentry).2
    exact hkey ▸ hentry
  · intro hfind
    exact ⟨(claimKey claim, claim), mem_toList_iff.mpr hfind, rfl⟩

/-- The candidates up to an instant, newest first. -/
theorem ClaimSpaces.Holds.pairwise_versions :
    (MemoryClaims.versionsAtOrBefore ⟨spaces.claims⟩ subject predicate at_).Pairwise
      fun a b => claimKey a < claimKey b :=
  h.pairwise_values.sublist filter_sublist

theorem ClaimSpaces.Holds.starts_descend :
    (MemoryClaims.versionsAtOrBefore ⟨spaces.claims⟩ subject predicate at_).Pairwise
      fun a b => b.validFrom ≤ a.validFrom := by
  refine h.pairwise_versions.imp_of_mem fun {a b} ha hb hlt => ?_
  obtain ⟨-, ha⟩ := mem_filter.mp ha
  obtain ⟨-, hb⟩ := mem_filter.mp hb
  simp only [decide_eq_true_eq] at ha hb
  simp only [claimKey, Prod.Lex.lt_iff, ofLex_toLex, ha.1, hb.1, ha.2.1, hb.2.1, lt_irrefl,
    false_or, true_and, OrderDual.toDual_lt_toDual, EmbeddingLike.apply_eq_iff_eq] at hlt
  omega

/-- The first candidate of a start is its newest correction. -/
theorem ClaimSpaces.Holds.find?_versions :
    (MemoryClaims.versionsAtOrBefore ⟨spaces.claims⟩ subject predicate at_).find?
        (fun other => other.validFrom == start) = some claim ↔
      NewestAt log subject predicate start claim ∧ start ≤ at_ := by
  rw [find?_eq_some_of_pairwise h.pairwise_versions]
  have hmem : ∀ other, other ∈ MemoryClaims.versionsAtOrBefore ⟨spaces.claims⟩ subject predicate at_ ↔
      last claimKey log (claimKey other) = some other ∧
        other.subject = subject ∧ other.predicate = predicate ∧ other.validFrom ≤ at_ := by
    intro other
    rw [MemoryClaims.versionsAtOrBefore, MemoryClaims.versions, mem_filter, h.mem_values]
    simp
  simp only [hmem, beq_iff_eq]
  constructor
  · rintro ⟨⟨hstored, hsubject, hpredicate, hle⟩, rfl, hleast⟩
    refine ⟨⟨hstored, ⟨hsubject, hpredicate, rfl⟩, fun other hother hotherAt => ?_⟩, hle⟩
    -- the row that stands where the other claim was put
    obtain ⟨row, hrow⟩ := exists_last claimKey hother
    obtain ⟨hrowMem, hkey⟩ := mem_of_last hrow
    obtain ⟨hs, hp, hv, htx⟩ := claimKey_inj hkey
    have hrowAt : Claim.At row subject predicate claim.validFrom :=
      ⟨hs.trans hotherAt.1, hp.trans hotherAt.2.1, hv.trans hotherAt.2.2⟩
    have hkeys := hleast row ⟨hkey ▸ hrow, hrowAt.1, hrowAt.2.1, hrowAt.2.2 ▸ hle⟩ hrowAt.2.2
    rw [← htx]
    by_contra hlt
    refine absurd hkeys (not_le.mpr ?_)
    simp only [claimKey, Prod.Lex.lt_iff, ofLex_toLex, hsubject, hpredicate, hrowAt.1, hrowAt.2.1,
      hrowAt.2.2, lt_irrefl, false_or, true_and, OrderDual.toDual_lt_toDual]
    omega
  · rintro ⟨hnewest, hle⟩
    obtain ⟨hsubject, hpredicate, hstart⟩ := hnewest.at_
    refine ⟨⟨hnewest.stored, hsubject, hpredicate, hstart ▸ hle⟩, hstart, ?_⟩
    rintro other ⟨hother, hs, hp, -⟩ hv
    have htx := hnewest.newest other (mem_of_last hother).1 ⟨hs, hp, hv⟩
    rcases Nat.lt_or_ge other.txTime claim.txTime with hlt | hge
    · refine le_of_lt ?_
      simp only [claimKey, Prod.Lex.lt_iff, ofLex_toLex, hsubject, hpredicate, hs, hp, hv, hstart,
        lt_irrefl, false_or, true_and, OrderDual.toDual_lt_toDual]
      omega
    · exact (claimKey_eq_of_at ⟨hsubject, hpredicate, hstart⟩ ⟨hs, hp, hv⟩ (le_antisymm hge htx)).le

end

theorem Claim.validAt_of_lt {claim : Claim} (h : at_ < claim.validFrom) :
    claim.validAt at_ = false := by
  rw [Claim.validAt, if_pos h]

theorem ClaimSpaces.Holds.asOf_eq_some (h : spaces.Holds log) :
    spaces.asOf subject predicate at_ = some claim ↔ Answers log subject predicate at_ claim := by
  rw [ClaimSpaces.asOf, MemoryClaims.asOf, resolveAsOf_eq_some h.starts_descend]
  simp only [h.find?_versions, Option.mem_def]
  constructor
  · rintro ⟨⟨hnewest, hle⟩, hvalid, hlater⟩
    refine ⟨hnewest, hvalid, fun start hstart other hother => ?_⟩
    by_cases hle : start ≤ at_
    · exact hlater start hstart other ⟨hother, hle⟩
    · refine Claim.validAt_of_lt ?_
      rw [hother.at_.2.2]
      omega
  · intro hanswers
    refine ⟨⟨hanswers.newest, ?_⟩, hanswers.valid, fun start hstart other hother =>
      hanswers.later start hstart other hother.1⟩
    by_contra hlt
    have hinvalid := Claim.validAt_of_lt (not_le.mp hlt)
    rw [hanswers.valid] at hinvalid
    cases hinvalid

theorem ClaimSpaces.Holds.asOf_eq_none (h : spaces.Holds log) :
    spaces.asOf subject predicate at_ = none ↔
      ∀ start other, NewestAt log subject predicate start other → other.validAt at_ = false := by
  rw [ClaimSpaces.asOf, MemoryClaims.asOf, resolveAsOf_eq_none h.starts_descend]
  simp only [h.find?_versions, Option.mem_def]
  refine ⟨fun hall start other hother => ?_, fun hall start other hother =>
    hall start other hother.1⟩
  by_cases hle : start ≤ at_
  · exact hall start other ⟨hother, hle⟩
  · refine Claim.validAt_of_lt ?_
    rw [hother.at_.2.2]
    omega

/-- The newest correction of a start answers where it is valid and nothing later does. -/
theorem ClaimSpaces.Holds.asOf_of_newestAt (h : spaces.Holds log)
    (hnewest : NewestAt log subject predicate start claim) (hvalid : claim.validAt at_ = true)
    (hbound : ∀ answer, spaces.asOf subject predicate at_ = some answer → answer.validFrom ≤ start) :
    spaces.asOf subject predicate at_ = some claim := by
  cases hasOf : spaces.asOf subject predicate at_ with
  | none =>
    have hinvalid := h.asOf_eq_none.mp hasOf start claim hnewest
    rw [hvalid] at hinvalid
    cases hinvalid
  | some answer =>
    have hanswers := h.asOf_eq_some.mp hasOf
    rcases Nat.lt_or_eq_of_le (hbound answer hasOf) with hlt | rfl
    · have hinvalid := hanswers.later start hlt claim hnewest
      rw [hvalid] at hinvalid
      cases hinvalid
    · rw [hanswers.newest.unique hnewest]

theorem Claim.validFrom_le {claim : Claim} (h : claim.validAt at_ = true) :
    claim.validFrom ≤ at_ := by
  by_contra hlt
  rw [Claim.validAt_of_lt (not_le.mp hlt)] at h
  cases h

theorem Claim.validAt_start {claim : Claim} (h : claim.validate = .ok ()) :
    claim.validAt claim.validFrom = true := by
  rw [Claim.validAt, if_neg (lt_irrefl _)]
  rw [Claim.validate] at h
  cases hstop : claim.validTo with
  | none => rfl
  | some stop =>
    rw [hstop] at h
    exact decide_eq_true (ensure_eq_ok.mp h)

/-- At its start, the newest correction answers. -/
theorem ClaimSpaces.Holds.asOf_start (h : spaces.Holds log)
    (hnewest : NewestAt log subject predicate start claim) (hvalid : claim.validate = .ok ()) :
    spaces.asOf subject predicate start = some claim := by
  have hstart := Claim.validAt_start hvalid
  rw [hnewest.at_.2.2] at hstart
  exact h.asOf_of_newestAt hnewest hstart fun answer hanswer =>
    Claim.validFrom_le (h.asOf_eq_some.mp hanswer).valid

/-- The answer depends only on the newest corrections of the starts up to the instant. -/
theorem Answers.of_newestAt {log' : List Claim}
    (hsame : ∀ {start newest}, start ≤ at_ → (NewestAt log subject predicate start newest ↔
      NewestAt log' subject predicate start newest))
    (h : Answers log subject predicate at_ claim) : Answers log' subject predicate at_ claim := by
  refine ⟨(hsame (Claim.validFrom_le h.valid)).mp h.newest, h.valid, ?_⟩
  intro start hstart newest hnewest
  rcases Nat.lt_or_ge at_ start with hafter | hbefore
  · refine Claim.validAt_of_lt ?_
    rwa [hnewest.at_.2.2]
  · exact h.later start hstart newest ((hsame hbefore).mpr hnewest)

theorem answers_concat_of_lt (hlt : at_ < other.validFrom) :
    Answers (log ++ [other]) subject predicate at_ claim ↔
      Answers log subject predicate at_ claim := by
  have hsame : ∀ {start newest}, start ≤ at_ →
      (NewestAt (log ++ [other]) subject predicate start newest ↔
        NewestAt log subject predicate start newest) := by
    intro start newest hstart
    refine newestAt_concat_iff ?_
    rintro ⟨-, -, rfl⟩
    omega
  exact ⟨.of_newestAt hsame, .of_newestAt fun hstart => (hsame hstart).symm⟩

theorem ClaimSpaces.Holds.asOf_concat_of_lt {after : ClaimSpaces} (h : spaces.Holds log)
    (hafter : after.Holds (log ++ [other])) (hlt : at_ < other.validFrom) :
    after.asOf subject predicate at_ = spaces.asOf subject predicate at_ := by
  refine Option.ext fun claim => ?_
  rw [hafter.asOf_eq_some, h.asOf_eq_some, answers_concat_of_lt hlt]

end Resolution

/-! ### Assertions -/

/-- A claim as the one that was asserted is stored, apart from what it supersedes. -/
def Claim.Restates (answer claim : Claim) : Prop :=
  ∃ link, answer = { claim.stored with supersedes := link }

theorem Claim.Restates.validAt {answer claim : Claim} (h : Claim.Restates answer claim) (at_ : Nat) :
    answer.validAt at_ = claim.validAt at_ := by
  obtain ⟨link, rfl⟩ := h
  rfl

/-- What an assertion is for: the claim answers at its start and wherever it is valid and
nothing later is in force, and what was answered before its start stays. -/
structure Asserted (before after : ClaimSpaces) (claim : Claim) : Prop where
  answers : ∃ answer, after.asOf claim.subject claim.predicate claim.validFrom = some answer ∧
    Claim.Restates answer claim
  earlier : ∀ at_ < claim.validFrom,
    (after.asOf claim.subject claim.predicate at_).map Claim.object =
      (before.asOf claim.subject claim.predicate at_).map Claim.object
  later : ∀ at_ ≥ claim.validFrom, claim.validAt at_ = true →
    (∀ answer, after.asOf claim.subject claim.predicate at_ = some answer →
      answer.validFrom ≤ claim.validFrom) →
    ∃ answer, after.asOf claim.subject claim.predicate at_ = some answer ∧
      Claim.Restates answer claim

/-- It is enough that the claim is stored as the newest correction of its start. -/
theorem asserted_of_newestAt {before after : ClaimSpaces} {stored : Claim}
    (hafter : after.Holds log) (hvalid : claim.validate = .ok ())
    (hnewest : NewestAt log claim.subject claim.predicate claim.validFrom stored)
    (hrestates : Claim.Restates stored claim)
    (hearlier : ∀ at_ < claim.validFrom,
      (after.asOf claim.subject claim.predicate at_).map Claim.object =
        (before.asOf claim.subject claim.predicate at_).map Claim.object) :
    Asserted before after claim := by
  have hlater : ∀ at_, claim.validAt at_ = true →
      (∀ answer, after.asOf claim.subject claim.predicate at_ = some answer →
        answer.validFrom ≤ claim.validFrom) →
      ∃ answer, after.asOf claim.subject claim.predicate at_ = some answer ∧
        Claim.Restates answer claim := by
    intro at_ hat hbound
    exact ⟨stored, hafter.asOf_of_newestAt hnewest ((hrestates.validAt at_).trans hat) hbound,
      hrestates⟩
  refine ⟨?_, hearlier, fun at_ _ => hlater at_⟩
  exact hlater claim.validFrom (Claim.validAt_start hvalid) fun answer hanswer =>
    Claim.validFrom_le (hafter.asOf_eq_some.mp hanswer).valid

section Retirement

variable {spaces after : ClaimSpaces} {previous retirement : Claim} {stop : Nat}

/-- A retirement cuts the window of the claim in force where the successor begins. -/
structure Retires (previous retirement : Claim) (stop : Nat) : Prop where
  subject : retirement.subject = previous.subject
  predicate : retirement.predicate = previous.predicate
  validFrom : retirement.validFrom = previous.validFrom
  validTo : retirement.validTo = some stop
  object : retirement.object = previous.object
  newer : previous.txTime < retirement.txTime

theorem Retires.validAt (h : Retires previous retirement stop)
    (hprevious : previous.validAt stop = true) (hlt : at_ < stop) :
    retirement.validAt at_ = previous.validAt at_ := by
  rw [Claim.validAt, Claim.validAt, h.validFrom, h.validTo]
  rw [Claim.validAt] at hprevious
  split
  · rfl
  · split at hprevious
    · cases hprevious
    · cases hstop : previous.validTo with
      | none => exact decide_eq_true hlt
      | some last =>
        rw [hstop] at hprevious
        have hlast : stop < last := of_decide_eq_true hprevious
        exact (decide_eq_true hlt).trans (decide_eq_true (hlt.trans hlast)).symm

/-- The retirement answers before the successor what the retired claim answered. -/
theorem ClaimSpaces.Holds.asOf_retired (h : spaces.Holds log)
    (hafter : after.Holds (log ++ [retirement])) (hretires : Retires previous retirement stop)
    (hnewest : NewestAt log subject predicate previous.validFrom previous)
    (hprevious : previous.validAt stop = true) (hlt : at_ < stop) :
    (after.asOf subject predicate at_).map Claim.object =
      (spaces.asOf subject predicate at_).map Claim.object := by
  have hvalid := hretires.validAt hprevious hlt
  have hretirement : NewestAt (log ++ [retirement]) subject predicate previous.validFrom
      retirement := by
    refine newestAt_concat ?_ fun other hother hotherAt =>
      (hnewest.newest other hother hotherAt).trans hretires.newer.le
    exact ⟨hretires.subject.trans hnewest.at_.1, hretires.predicate.trans hnewest.at_.2.1,
      hretires.validFrom⟩
  have hother : ∀ {start : Nat} {newest : Claim}, start ≠ previous.validFrom →
      (NewestAt (log ++ [retirement]) subject predicate start newest ↔
        NewestAt log subject predicate start newest) := by
    intro start newest hstart
    refine newestAt_concat_iff ?_
    rintro ⟨-, -, hsame⟩
    exact hstart (hsame.symm.trans hretires.validFrom)
  cases hasOf : spaces.asOf subject predicate at_ with
  | none =>
    have hnone := h.asOf_eq_none.mp hasOf
    have hafterNone : after.asOf subject predicate at_ = none := by
      refine hafter.asOf_eq_none.mpr fun start newest hstart => ?_
      by_cases hsame : start = previous.validFrom
      · subst hsame
        rw [hstart.unique hretirement, hvalid]
        exact hnone _ previous hnewest
      · exact hnone start newest ((hother hsame).mp hstart)
    rw [hafterNone]
  | some answer =>
    have hanswers := h.asOf_eq_some.mp hasOf
    by_cases hsame : answer.validFrom = previous.validFrom
    · -- the retired claim answered, and its retirement does now
      have hanswer : answer = previous := (hsame ▸ hanswers.newest).unique hnewest
      subst hanswer
      have hafterSome : after.asOf subject predicate at_ = some retirement := by
        refine hafter.asOf_eq_some.mpr ⟨?_, hvalid.trans hanswers.valid, ?_⟩
        · rw [hretires.validFrom]
          exact hretirement
        · intro start hstart newest hnew
          rw [hretires.validFrom] at hstart
          exact hanswers.later start hstart newest ((hother hstart.ne').mp hnew)
      rw [hafterSome, Option.map_some, Option.map_some, hretires.object]
    · have hafterSome : after.asOf subject predicate at_ = some answer := by
        refine hafter.asOf_eq_some.mpr ⟨(hother hsame).mpr hanswers.newest, hanswers.valid, ?_⟩
        intro start hstart newest hnew
        by_cases hstartSame : start = previous.validFrom
        · subst hstartSame
          rw [hnew.unique hretirement, hvalid]
          exact hanswers.later _ hstart previous hnewest
        · exact hanswers.later start hstart newest ((hother hstartSame).mp hnew)
      rw [hafterSome]

end Retirement

theorem supersede_eq_ok {digest : Claim → String} {previous successor : Claim}
    {pair : List Claim} (h : supersede digest previous successor = .ok pair) :
    ∃ retirement link, pair = [retirement, { successor with supersedes := link }] ∧
      Retires previous retirement.stored successor.validFrom := by
  simp only [supersede, bind_eq_ok, ensure_eq_ok] at h
  obtain ⟨_, -, _, ⟨-, htx⟩, _, -, _, -, h⟩ := h
  obtain rfl := Except.ok.inj h
  exact ⟨_, _, rfl, rfl, rfl, rfl, rfl, rfl, htx⟩

theorem appendBatch_valid {spaces : ClaimSpaces} {claims : List Claim} {outcome : AppendOutcome}
    {writes : List ClaimWrite} (h : appendBatch spaces claims = .ok (outcome, writes)) :
    ∀ claim ∈ claims, claim.validate = .ok () := by
  simp only [appendBatch, bind_eq_ok, forM_eq_ok, lift_eq_ok] at h
  exact h.choose_spec.1

/-- An assertion makes its claim the answer exactly if no later transaction time was
recorded for the start of the claim. -/
theorem assert_answers_iff {digest : Claim → String} {state : State} {outcome : AppendOutcome}
    {writes : List ClaimWrite} (h : Logs externals log state)
    (hassert : assertClaim digest state.claims claim = .ok (outcome, writes)) :
    Asserted state.claims (state.claims.applyAll writes) claim ↔
      ∀ other ∈ log, Claim.At other claim.subject claim.predicate claim.validFrom →
        other.txTime ≤ claim.txTime := by
  have hholds := h.holds
  have hvalid : ∀ row ∈ log.map Claim.stored, row.validate = .ok () := forall_mem_map.mpr h.valid
  -- a row has the start and the time of its claim
  have hrows : (∀ other ∈ log, Claim.At other claim.subject claim.predicate claim.validFrom →
      other.txTime ≤ claim.txTime) ↔ ∀ row ∈ log.map Claim.stored,
        Claim.At row claim.subject claim.predicate claim.validFrom →
          row.txTime ≤ claim.txTime := by
    rw [forall_mem_map]
    rfl
  rw [hrows]
  -- a row with this start would be in force there
  have hinForce : ∀ row ∈ log.map Claim.stored,
      Claim.At row claim.subject claim.predicate claim.validFrom →
      ∃ newest, NewestAt (log.map Claim.stored) claim.subject claim.predicate claim.validFrom
          newest ∧
        state.claims.asOf claim.subject claim.predicate claim.validFrom = some newest := by
    intro row hrow hrowAt
    obtain ⟨newest, hnewest⟩ := exists_newestAt hrow hrowAt
    exact ⟨newest, hnewest, hholds.asOf_start hnewest (hvalid newest hnewest.mem)⟩
  have hplain : appendBatch state.claims [claim] = .ok (outcome, writes) →
      (Asserted state.claims (state.claims.applyAll writes) claim ↔
        ∀ row ∈ log.map Claim.stored,
          Claim.At row claim.subject claim.predicate claim.validFrom →
          row.txTime ≤ claim.txTime) := by
    intro happend
    have hafter : (state.claims.applyAll writes).Holds (log.map Claim.stored ++ [claim.stored]) :=
      hholds.append happend
    have hvalid := appendBatch_valid happend claim (mem_singleton_self _)
    constructor
    · intro hasserted row hrow hrowAt
      obtain ⟨answer, hanswer, hrestates⟩ := hasserted.answers
      have hnewest := (hafter.asOf_eq_some.mp hanswer).newest
      obtain ⟨link, rfl⟩ := hrestates
      exact hnewest.newest row (mem_append_left _ hrow) hrowAt
    · intro hnewest
      refine asserted_of_newestAt hafter hvalid (newestAt_concat ⟨rfl, rfl, rfl⟩ hnewest)
        ⟨claim.supersedes, rfl⟩ fun at_ hlt => ?_
      rw [hholds.asOf_concat_of_lt hafter hlt]
  unfold assertClaim at hassert
  split at hassert
  · next previous hprevious =>
      split at hassert
      · next hlt =>
          rw [bind_eq_ok] at hassert
          obtain ⟨pair, hpair, happend⟩ := hassert
          obtain ⟨retirement, link, rfl, hretires⟩ := supersede_eq_ok (lift_eq_ok.mp hpair)
          have hafter := hholds.append happend
          rw [map_cons, append_cons] at hafter
          have hanswers := hholds.asOf_eq_some.mp hprevious
          have hnone : ∀ row ∈ log.map Claim.stored,
              ¬ Claim.At row claim.subject claim.predicate claim.validFrom := by
            intro row hrow hrowAt
            obtain ⟨newest, hnewest, hasOf⟩ := hinForce row hrow hrowAt
            rw [hprevious] at hasOf
            obtain rfl := Option.some.inj hasOf
            rw [hnewest.at_.2.2] at hlt
            exact lt_irrefl _ hlt
          refine iff_of_true ?_ fun row hrow hrowAt => absurd hrowAt (hnone row hrow)
          have hvalid : claim.validate = .ok () :=
            appendBatch_valid happend { claim with supersedes := link } (by simp)
          have hstored : NewestAt (log.map Claim.stored ++ [retirement.stored] ++
                [{ claim.stored with supersedes := link }]) claim.subject claim.predicate
              claim.validFrom { claim.stored with supersedes := link } := by
            refine newestAt_concat ⟨rfl, rfl, rfl⟩ fun row hrow hrowAt => ?_
            rcases mem_append.mp hrow with hrow | hrow
            · exact absurd hrowAt (hnone row hrow)
            · rw [mem_singleton.mp hrow] at hrowAt
              rw [hrowAt.2.2.symm.trans hretires.validFrom] at hlt
              exact absurd hlt (lt_irrefl _)
          refine asserted_of_newestAt hafter hvalid hstored ⟨link, rfl⟩ fun at_ hat => ?_
          obtain ⟨middle, hmiddle⟩ := ClaimSpaces.exists_holds (log ++ [retirement])
          rw [map_append] at hmiddle
          rw [hmiddle.asOf_concat_of_lt hafter hat]
          exact hholds.asOf_retired hmiddle hretires hanswers.newest hanswers.valid hat
      · exact hplain hassert
  · exact hplain hassert

/-- The state after one appended claim, and the outcome of an assertion there. -/
def assertAfter (first claim : Claim) :
    Except Error ((List Claim × State) × (AppendOutcome × List ClaimWrite)) := do
  let run ← logRun .numbered [.append [first]]
  let asserted ← assertClaim Claim.object run.2.claims claim
  return (run, asserted)

theorem assertAfter_eq_ok {first claim : Claim}
    {result : (List Claim × State) × (AppendOutcome × List ClaimWrite)}
    (h : assertAfter first claim = .ok result) :
    Logs .numbered result.1.1 result.1.2 ∧
      assertClaim Claim.object result.1.2.claims claim = .ok result.2 := by
  simp only [assertAfter, bind_eq_ok] at h
  obtain ⟨run, hrun, asserted, hassert, h⟩ := h
  obtain rfl := Except.ok.inj h
  exact ⟨logs_logRun hrun, hassert⟩

/-- A claim recorded at time 5 keeps answering after the assertion of one recorded at 1. -/
theorem assert_does_not_answer : ∃ log state outcome writes, Logs .numbered log state ∧
    log = [{ boilsAt "99" with txTime := 5 }] ∧
    assertClaim Claim.object state.claims (boilsAt "100") = .ok (outcome, writes) ∧
    ((state.claims.applyAll writes).asOf (boilsAt "100").subject (boilsAt "100").predicate
      (boilsAt "100").validFrom).map Claim.object = some "99" ∧
    ¬ Asserted state.claims (state.claims.applyAll writes) (boilsAt "100") := by
  have hrun : (assertAfter { boilsAt "99" with txTime := 5 } (boilsAt "100")).toOption.any
      (fun result => result.1.1 = [{ boilsAt "99" with txTime := 5 }] ∧
        ((result.1.2.claims.applyAll result.2.2).asOf (boilsAt "100").subject
          (boilsAt "100").predicate (boilsAt "100").validFrom).map Claim.object = some "99") =
        true := by
    decide +kernel
  obtain ⟨⟨⟨log, state⟩, outcome, writes⟩, hrun, htest⟩ := exists_ok_of_any hrun
  obtain ⟨hlog, hanswer⟩ := of_decide_eq_true htest
  obtain ⟨hlogs, hassert⟩ := assertAfter_eq_ok hrun
  refine ⟨log, state, outcome, writes, hlogs, hlog, hassert, hanswer, fun hasserted => ?_⟩
  obtain ⟨answer, hasOf, link, rfl⟩ := hasserted.answers
  rw [hasOf, Option.map_some, Option.some.injEq] at hanswer
  exact absurd hanswer (by simp [boilsAt, Claim.stored])

/-- A claim of a later start and a later transaction time retires the one in force. -/
theorem assert_answers_iff_superseded : ∃ log state outcome writes, Logs .numbered log state ∧
    log = [boilsAt "99"] ∧
    assertClaim Claim.object state.claims { boilsAt "100" with validFrom := 2, txTime := 2 } =
      .ok (outcome, writes) ∧
    Asserted state.claims (state.claims.applyAll writes)
      { boilsAt "100" with validFrom := 2, txTime := 2 } := by
  have hrun : (assertAfter (boilsAt "99")
      { boilsAt "100" with validFrom := 2, txTime := 2 }).toOption.any
      (fun result => result.1.1 = [boilsAt "99"]) = true := by
    decide +kernel
  obtain ⟨⟨⟨log, state⟩, outcome, writes⟩, hrun, htest⟩ := exists_ok_of_any hrun
  have hlog : log = [boilsAt "99"] := of_decide_eq_true htest
  obtain ⟨hlogs, hassert⟩ := assertAfter_eq_ok hrun
  refine ⟨log, state, outcome, writes, hlogs, hlog, hassert,
    (assert_answers_iff hlogs hassert).mpr fun other hother hotherAt => ?_⟩
  rw [hlog, mem_singleton] at hother
  rw [hother]
  decide

end Rrflow.Store

import Rrflow.Kernel.Snapshot

/-!
Claims as query rows.

A query over claims takes the versions of each pair of subject and predicate in
the order of their commits, the latest first, and resolves them like a list in
newest-first order. The two orders differ when a version is recorded late; this
module says exactly when the rows are right.
-/

namespace Rrflow.Query

open Kernel Claim List SortedMap

variable {versions : List (Nat × Claim)} {asOf : Nat}

structure QueryRow where
  identity : String
  values : SortedMap String RuntimeValue
  deriving DecidableEq

variable (sha256Hex : List (Fin 256) → String)

/-- The identity of a claim hides its subject. -/
def claimIdentity (subject : Subject) (predicate : Predicate) : String :=
  "claim:" ++ sha256Hex (utf8 "rrd-context-claim-v1" ++ [0] ++ utf8 subject.val ++ [0] ++
    utf8 predicate.val)

def optionalUnsigned : Option Nat → RuntimeValue
  | none => .null
  | some value => .unsigned value

def claimRow (pair : String ×ₗ String) (claim : Claim) : QueryRow where
  identity := claimIdentity sha256Hex claim.subject claim.predicate
  values := ofList [
    ("subject", .string (ofLex pair).1),
    ("predicate", .string (ofLex pair).2),
    ("object", .string claim.object),
    ("valid_from", .unsigned claim.validFrom),
    ("valid_to", optionalUnsigned claim.validTo),
    ("tx_time", .unsigned claim.txTime),
    ("actor", .string claim.producer.actor)]

variable (changes : List RuntimeChange)

def claimVersions (scope : ScopeId) (predicate : Option Predicate) (knownAtCursor : Nat) :
    List (Nat × Claim) :=
  (visibleChanges changes scope knownAtCursor).filterMap fun change =>
    (change.mutation.claim?.filter fun claim => predicate.all (· = claim.predicate)).map
      fun claim => (change.cursor, claim)

def claimGroups (scope : ScopeId) (predicate : Option Predicate) (knownAtCursor : Nat) :
    SortedMap (String ×ₗ String) (List (Nat × Claim)) :=
  groupBy (fun version => toLex (version.2.subject.val, version.2.predicate.val))
    (claimVersions changes scope predicate knownAtCursor)

def commitOrder (versions : List (Nat × Claim)) : List Claim :=
  (versions.insertionSort fun a b => b.1 ≤ a.1).map Prod.snd

def claimRows (scope : ScopeId) (predicate : Option Predicate) (validAt knownAtCursor : Nat) :
    List QueryRow :=
  (claimGroups changes scope predicate knownAtCursor).toList.filterMap fun group =>
    (resolveAsOf (commitOrder group.2) validAt).map (claimRow sha256Hex group.1)

/-! ### What the rows should be -/

/-- The row of each pair from its versions in newest-first order, as in the
snapshots of the kernel. -/
def newestFirstRows (scope : ScopeId) (predicate : Option Predicate) (validAt knownAtCursor : Nat) :
    List QueryRow :=
  (claimGroups changes scope predicate knownAtCursor).toList.filterMap fun group =>
    (resolveAsOf ((group.2.map Prod.snd).insertionSort NewestFirst) validAt).map
      (claimRow sha256Hex group.1)

/-- No version of the same start was committed next. -/
def Leads (versions : List (Nat × Claim)) (version : Nat × Claim) : Prop :=
  ∀ next ∈ versions, version.1 < next.1 → next.2.validFrom = version.2.validFrom →
    ∃ other ∈ versions, version.1 < other.1 ∧ other.1 < next.1

/-- Of the versions that lead, none that was committed later is valid. -/
structure Foremost (asOf : Nat) (versions : List (Nat × Claim)) (version : Nat × Claim) : Prop where
  mem : version ∈ versions
  leads : Leads versions version
  last : ∀ later ∈ versions, version.1 < later.1 → Leads versions later →
    later.2.validAt asOf = false

/-- Two claims that a query cannot tell apart. -/
def SameRow (a b : Claim) : Prop :=
  a.object = b.object ∧ a.validFrom = b.validFrom ∧ a.validTo = b.validTo ∧ a.txTime = b.txTime ∧
    a.producer.actor = b.producer.actor

/-- The cursors give the answer of the times: what is in force has the row of a foremost
version, and if nothing is in force, no foremost version is valid. -/
structure Agrees (asOf : Nat) (versions : List (Nat × Claim)) : Prop where
  shown : ∀ current, InForce asOf (versions.map Prod.snd) current →
    ∃ version, Foremost asOf versions version ∧ SameRow version.2 current
  silent : (∀ current, ¬InForce asOf (versions.map Prod.snd) current) →
    ∀ version, Foremost asOf versions version → version.2.validAt asOf = false

/-! ### The scan in the order of the commits -/

section Scan

variable {skipped : Option Nat} {head version : Nat × Claim} {rest : List (Nat × Claim)}

/-- Among versions of which `skipped` is the start of the one committed after them. -/
def LeadsAfter (skipped : Option Nat) (versions : List (Nat × Claim)) (version : Nat × Claim) :
    Prop :=
  Leads versions version ∧
    (skipped = some version.2.validFrom → ∃ other ∈ versions, version.1 < other.1)

theorem leadsAfter_none : LeadsAfter none versions version ↔ Leads versions version := by
  simp [LeadsAfter]

theorem leadsAfter_cons_self (h : ∀ version ∈ rest, version.1 < head.1) :
    LeadsAfter skipped (head :: rest) head ↔ skipped ≠ some head.2.validFrom := by
  have hlast : ∀ version ∈ head :: rest, ¬head.1 < version.1 := by grind
  grind [LeadsAfter, Leads]

/-- The head is later than the rest: it lies between no two of them, and whatever follows
the head follows a version of the rest only through it. -/
theorem leadsAfter_cons_of_mem (h : ∀ version ∈ rest, version.1 < head.1) (hmem : version ∈ rest) :
    LeadsAfter skipped (head :: rest) version ↔
      LeadsAfter (some head.2.validFrom) rest version := by
  unfold LeadsAfter Leads
  grind

theorem resolveFrom_map {claim : Claim} (hcursors : versions.Pairwise fun a b => b.1 < a.1) :
    resolveFrom asOf skipped (versions.map Prod.snd) = some claim ↔
      ∃ version ∈ versions, version.2 = claim ∧ version.2.validAt asOf = true ∧
        LeadsAfter skipped versions version ∧ ∀ later ∈ versions, version.1 < later.1 →
          LeadsAfter skipped versions later → later.2.validAt asOf = false := by
  induction versions generalizing skipped with
  | nil => simp [resolveFrom]
  | cons head rest ih =>
    obtain ⟨hhead, hrest⟩ := pairwise_cons.mp hcursors
    have hself : LeadsAfter skipped (head :: rest) head ↔ _ := leadsAfter_cons_self hhead
    have hmem : ∀ version ∈ rest, (LeadsAfter skipped (head :: rest) version ↔ _) :=
      fun _ => leadsAfter_cons_of_mem hhead
    -- the head answers, unless it does not lead or is not valid
    rw [map_cons, resolveFrom]
    split_ifs with hskipped hvalid
    · rw [hskipped, ih hrest]
      grind
    · grind
    · rw [ih hrest]
      grind

/-- The scan of the versions in the order of their commits answers with the foremost one
that is valid. -/
theorem resolveAsOf_commitOrder {claim : Claim}
    (hcursors : versions.Pairwise fun a b => a.1 < b.1) :
    resolveAsOf (commitOrder versions) asOf = some claim ↔
      ∃ version, Foremost asOf versions version ∧ version.2 = claim ∧
        version.2.validAt asOf = true := by
  have hne : (versions.insertionSort fun a b => b.1 ≤ a.1).Pairwise fun a b => a.1 ≠ b.1 :=
    ((perm_insertionSort _ versions).symm.pairwise_iff fun h => h.symm).mp
      (hcursors.imp fun h => h.ne)
  have hdescending : (versions.insertionSort fun a b => b.1 ≤ a.1).Pairwise
      fun a b => b.1 < a.1 :=
    ((pairwise_insertionSort (fun a b : Nat × Claim => b.1 ≤ a.1) versions).and hne).imp
      fun h => lt_of_le_of_ne h.1 h.2.symm
  rw [resolveAsOf, commitOrder, resolveFrom_map hdescending]
  simp only [leadsAfter_none, Leads, mem_insertionSort]
  constructor
  · rintro ⟨version, hmem, hclaim, hvalid, hleads, hlast⟩
    exact ⟨version, ⟨hmem, hleads, hlast⟩, hclaim, hvalid⟩
  · rintro ⟨version, ⟨hmem, hleads, hlast⟩, hclaim, hvalid⟩
    exact ⟨version, hmem, hclaim, hvalid, hleads, hlast⟩

end Scan

/-! ### Rows -/

def QueryRow.pair (row : QueryRow) : String ×ₗ String :=
  match row.values.find? "subject", row.values.find? "predicate" with
  | some (.string subject), some (.string predicate) => toLex (subject, predicate)
  | _, _ => toLex ("", "")

theorem find?_claimRow (pair : String ×ₗ String) (claim : Claim) :
    let values := (claimRow sha256Hex pair claim).values
    values.find? "subject" = some (.string (ofLex pair).1) ∧
      values.find? "predicate" = some (.string (ofLex pair).2) ∧
      values.find? "object" = some (.string claim.object) ∧
      values.find? "valid_from" = some (.unsigned claim.validFrom) ∧
      values.find? "valid_to" = some (optionalUnsigned claim.validTo) ∧
      values.find? "tx_time" = some (.unsigned claim.txTime) ∧
      values.find? "actor" = some (.string claim.producer.actor) := by
  simp [claimRow, ofList, find?_insert]

theorem pair_claimRow (pair : String ×ₗ String) (claim : Claim) :
    (claimRow sha256Hex pair claim).pair = pair := by
  obtain ⟨hsubject, hpredicate, -⟩ := find?_claimRow sha256Hex pair claim
  rw [QueryRow.pair, hsubject, hpredicate]
  rfl

theorem optionalUnsigned_injective : Function.Injective optionalUnsigned := by
  intro a b h
  cases a <;> cases b <;> simp_all [optionalUnsigned]

/-- Claims of one pair have the same row when a query cannot tell them apart. -/
theorem claimRow_eq_iff {pair : String ×ₗ String} {a b : Claim} (hsubject : a.subject = b.subject)
    (hpredicate : a.predicate = b.predicate) :
    claimRow sha256Hex pair a = claimRow sha256Hex pair b ↔ SameRow a b := by
  constructor
  · intro h
    have hvalues : (claimRow sha256Hex pair a).values = (claimRow sha256Hex pair b).values := by
      rw [h]
    obtain ⟨-, -, hobject, hfrom, hto, htx, hactor⟩ := find?_claimRow sha256Hex pair a
    obtain ⟨-, -, hobject', hfrom', hto', htx', hactor'⟩ := find?_claimRow sha256Hex pair b
    rw [hvalues] at hobject hfrom hto htx hactor
    refine ⟨?_, ?_, ?_, ?_, ?_⟩
    · simpa using hobject.symm.trans hobject'
    · simpa using hfrom.symm.trans hfrom'
    · exact optionalUnsigned_injective (Option.some.inj (hto.symm.trans hto'))
    · simpa using htx.symm.trans htx'
    · simpa using hactor.symm.trans hactor'
  · rintro ⟨hobject, hfrom, hto, htx, hactor⟩
    simp only [claimRow, hsubject, hpredicate, hobject, hfrom, hto, htx, hactor]

theorem SameRow.validAt_eq {a b : Claim} (h : SameRow a b) : a.validAt asOf = b.validAt asOf := by
  obtain ⟨-, hfrom, hto, -⟩ := h
  rw [Claim.validAt, Claim.validAt, hfrom, hto]

theorem row_eq_iff {pair : String ×ₗ String} (hcursors : versions.Pairwise fun a b => a.1 < b.1)
    (hpair : ∀ claim ∈ versions.map Prod.snd,
      toLex (claim.subject.val, claim.predicate.val) = pair) :
    (resolveAsOf (commitOrder versions) asOf).map (claimRow sha256Hex pair) =
        (resolveAsOf ((versions.map Prod.snd).insertionSort NewestFirst) asOf).map
          (claimRow sha256Hex pair) ↔
      Agrees asOf versions := by
  have hsame {version : Nat × Claim} {current : Claim} (hversion : Foremost asOf versions version)
      (hcurrent : InForce asOf (versions.map Prod.snd) current) :
      claimRow sha256Hex pair version.2 = claimRow sha256Hex pair current ↔
        SameRow version.2 current := by
    have hab := (hpair _ (mem_map_of_mem hversion.mem)).trans (hpair _ hcurrent.mem).symm
    have hab' := congrArg ofLex hab
    simp only [ofLex_toLex, Prod.mk.injEq] at hab'
    exact claimRow_eq_iff sha256Hex (Subtype.ext hab'.1) (Subtype.ext hab'.2)
  constructor
  · intro h
    constructor
    · intro current hcurrent
      rw [resolveAsOf_newestFirst.mpr hcurrent, Option.map_some, Option.map_eq_some_iff] at h
      obtain ⟨claim, hclaim, hrow⟩ := h
      obtain ⟨version, hversion, rfl, -⟩ := (resolveAsOf_commitOrder hcursors).mp hclaim
      exact ⟨version, hversion, (hsame hversion hcurrent).mp hrow⟩
    · intro hnone version hversion
      by_contra hvalid
      rw [(resolveAsOf_commitOrder hcursors).mpr
        ⟨version, hversion, rfl, Bool.eq_true_of_not_eq_false hvalid⟩, Option.map_some, eq_comm,
        Option.map_eq_some_iff] at h
      obtain ⟨current, hcurrent, -⟩ := h
      exact hnone current (resolveAsOf_newestFirst.mp hcurrent)
  · intro h
    cases hcurrent : resolveAsOf ((versions.map Prod.snd).insertionSort NewestFirst) asOf with
    | none =>
      have hnone : ∀ current, ¬InForce asOf (versions.map Prod.snd) current := by
        intro current hforce
        rw [resolveAsOf_newestFirst.mpr hforce] at hcurrent
        exact nomatch hcurrent
      cases hclaim : resolveAsOf (commitOrder versions) asOf with
      | none => rfl
      | some claim =>
        obtain ⟨version, hversion, -, hvalid⟩ := (resolveAsOf_commitOrder hcursors).mp hclaim
        rw [h.silent hnone version hversion] at hvalid
        exact nomatch hvalid
    | some current =>
      have hforce := resolveAsOf_newestFirst.mp hcurrent
      obtain ⟨version, hversion, hrow⟩ := h.shown current hforce
      have hvalid : version.2.validAt asOf = true := hrow.validAt_eq.trans hforce.valid
      rw [(resolveAsOf_commitOrder hcursors).mpr ⟨version, hversion, rfl, hvalid⟩,
        Option.map_some, Option.map_some, (hsame hversion hforce).mpr hrow]

section Log

variable {changes} {scope : ScopeId} {predicate : Option Predicate} {knownAtCursor : Nat}

theorem pairwise_claimVersions (hlog : changes.Pairwise fun a b => a.cursor < b.cursor) :
    (claimVersions changes scope predicate knownAtCursor).Pairwise fun a b => a.1 < b.1 := by
  refine (hlog.filter _).filterMap _ fun a b hlt version hversion version' hversion' => ?_
  obtain ⟨claim, -, rfl⟩ := Option.map_eq_some_iff.mp hversion
  obtain ⟨claim', -, rfl⟩ := Option.map_eq_some_iff.mp hversion'
  exact hlt

/-- The versions of a pair are those of the claims that a snapshot resolves. -/
theorem map_filter_claimVersions {subject : Subject} {shown : Predicate}
    (hshown : predicate.all (· = shown)) :
    ((claimVersions changes scope predicate knownAtCursor).filter fun version =>
      toLex (version.2.subject.val, version.2.predicate.val) = toLex (subject.val, shown.val)).map
        Prod.snd =
      versionsOf ((visibleChanges changes scope knownAtCursor).filterMap fun change =>
        change.mutation.claim?) subject shown := by
  rw [claimVersions, filter_filterMap, map_filterMap, versionsOf, filter_filterMap]
  refine filterMap_congr fun change _ => ?_
  cases change.mutation.claim? with
  | none => rfl
  | some claim =>
    simp only [Option.filter_some]
    split_ifs <;> simp_all [Subtype.ext_iff]

/-- The rows that a query should have are those of the claims of the snapshot. -/
theorem mem_newestFirstRows {schema : RuntimeSchemaRegistry} {validAt : Nat}
    {snapshot : RuntimeDataSnapshot} {row : QueryRow}
    (h : RuntimeDataSnapshot.fromChanges changes schema scope validAt knownAtCursor =
      .ok snapshot) :
    row ∈ newestFirstRows sha256Hex changes scope predicate validAt knownAtCursor ↔
      ∃ claim ∈ snapshot.claims, predicate.all (· = claim.predicate) ∧
        row = claimRow sha256Hex (toLex (claim.subject.val, claim.predicate.val)) claim := by
  simp only [newestFirstRows, mem_filterMap, Option.map_eq_some_iff, resolveAsOf_newestFirst,
    RuntimeDataSnapshot.mem_claims_fromChanges h]
  constructor
  · rintro ⟨⟨pair, versions⟩, hgroup, claim, hforce, rfl⟩
    rw [mem_toList_iff, claimGroups, find?_groupBy] at hgroup
    obtain ⟨-, rfl⟩ := hgroup
    obtain ⟨version, hversion, rfl⟩ := mem_map.mp hforce.mem
    obtain ⟨hmem, hpair⟩ := mem_filter.mp hversion
    obtain rfl := of_decide_eq_true hpair
    have hshown : predicate.all (· = version.2.predicate) := by
      rw [claimVersions] at hmem
      obtain ⟨change, -, hchange⟩ := mem_filterMap.mp hmem
      obtain ⟨claim, hclaim, rfl⟩ := Option.map_eq_some_iff.mp hchange
      exact (Option.filter_eq_some_iff.mp hclaim).2
    rw [map_filter_claimVersions hshown] at hforce
    exact ⟨version.2, hforce, hshown, rfl⟩
  · rintro ⟨claim, hforce, hshown, rfl⟩
    rw [← map_filter_claimVersions hshown] at hforce
    refine ⟨(toLex (claim.subject.val, claim.predicate.val), _), ?_, claim, hforce, rfl⟩
    refine mem_toList_iff.mpr (find?_groupBy.mpr ⟨?_, rfl⟩)
    exact fun hnil => not_mem_nil (map_eq_nil_iff.mpr hnil ▸ hforce.mem)

end Log

/-- Versions that were committed in the order of their times agree with it at
every instant. -/
theorem agrees_of_commitOrder (hcursors : versions.Pairwise fun a b => a.1 < b.1)
    (h : (commitOrder versions).Pairwise fun a b => NewestFirst a b ∧ ¬NewestFirst b a) (asOf : Nat)
    : Agrees asOf versions := by
  have hperm : (commitOrder versions).Perm ((versions.map Prod.snd).insertionSort NewestFirst) :=
    ((perm_insertionSort _ versions).map Prod.snd).trans (perm_insertionSort _ _).symm
  have horder : commitOrder versions = (versions.map Prod.snd).insertionSort NewestFirst := by
    have hsymm : Std.Symm fun a b : Claim => ¬(NewestFirst a b ∧ NewestFirst b a) :=
      ⟨fun _ _ hab hba => hab hba.symm⟩
    have hstrict : (commitOrder versions).Pairwise fun a b => ¬(NewestFirst a b ∧ NewestFirst b a) :=
      h.imp fun hab hboth => hab.2 hboth.2
    refine hperm.eq_of_pairwise ?_ (h.imp And.left) (pairwise_insertionSort _ _)
    intro a b ha hb hab hba
    by_contra hne
    exact hstrict.forall ha (hperm.mem_iff.mpr hb) hne ⟨hab, hba⟩
  have hforce {claim : Claim} : InForce asOf (versions.map Prod.snd) claim ↔
      ∃ version, Foremost asOf versions version ∧ version.2 = claim ∧
        version.2.validAt asOf = true := by
    rw [← resolveAsOf_newestFirst, ← horder, resolveAsOf_commitOrder hcursors]
  constructor
  · intro current hcurrent
    obtain ⟨version, hversion, rfl, -⟩ := hforce.mp hcurrent
    exact ⟨version, hversion, rfl, rfl, rfl, rfl, rfl⟩
  · intro hnone version hversion
    by_contra hvalid
    exact hnone _ (hforce.mpr ⟨version, hversion, rfl, Bool.eq_true_of_not_eq_false hvalid⟩)

namespace Sample

def claim (object : String) (validFrom : Nat) : Claim where
  subject := ⟨"wp3", by decide⟩
  predicate := ⟨"status", by decide⟩
  object := object
  validFrom := validFrom
  validTo := none
  txTime := validFrom
  producer := { actor := "agent", onBehalfOf := none, session := none }
  confidence := none
  supersedes := none
  signature := none
  tier := .localTier
  promotionState := .unpromoted

def scope : ScopeId := ⟨"instance:main", by decide⟩

def change (cursor : Nat) (claim : Claim) : RuntimeChange where
  cursor := cursor
  commitId := ""
  commitOrdinal := 0
  scope := scope
  at_ := 0
  actor := "agent"
  mutation := .claim claim
  previousDigest := none
  digest := ""

/-- A claim from 200 on, and then a late one from 100 on. -/
def backdated : List RuntimeChange := [change 1 (claim "done" 200), change 2 (claim "open" 100)]

/-- The same claims in the order of their starts. -/
def inOrder : List RuntimeChange := [change 1 (claim "open" 100), change 2 (claim "done" 200)]

end Sample

end Rrflow.Query

import Rrflow.Store.ClaimLog

/-!
The current-state projection over the claim log, and its grounding.

The projection holds the newest claim of every pair of subject and predicate. A rebuild
folds the claims after its watermark into it; a grounding folds all claims up to the
watermark again and compares. The first fold saw a claim when it was new, the second one
reads it back, so they differ when the row of the newest claim of a pair was stored over
with an unequal one after the watermark.
-/

namespace Rrflow.Store

open Kernel Checks Overwrite List SortedMap

variable {log : List Claim}

inductive ProjectionStatus
  | active
  | quarantined (at_ : Nat) (differences : List String)
  deriving DecidableEq

structure GroundedStamp where
  at_ : Nat
  sequence : Nat
  digest : Nat
  deriving DecidableEq

structure RebuildOutcome where
  start : Nat
  stop : Nat
  applied : Nat
  deriving DecidableEq

inductive GroundingReport
  | grounded (stamp : GroundedStamp)
  | divergence (differences : List String)
  deriving DecidableEq

abbrev Pair := String ×ₗ String

def pairOf (claim : Claim) : Pair := toLex (claim.subject.val, claim.predicate.val)

/-- The persisted form: the claims themselves, in the order of their pairs. They come from
rows, so that their texts give them back. -/
structure StoredProjection where
  watermark : Nat
  status : ProjectionStatus
  lastGrounded : Option GroundedStamp
  entries : List Claim
  deriving DecidableEq

structure CurrentProjection where
  watermark : Nat
  status : ProjectionStatus
  lastGrounded : Option GroundedStamp
  entries : SortedMap Pair Claim

variable (projection : CurrentProjection)

namespace CurrentProjection

def empty : CurrentProjection :=
  { watermark := 0, status := .active, lastGrounded := none, entries := .empty }

def stampOf (claim : Claim) : Nat ×ₗ Nat := toLex (claim.validFrom, claim.txTime)

/-- A claim replaces one that is not newer. -/
def applyClaim (entries : SortedMap Pair Claim) (claim : Claim) : SortedMap Pair Claim :=
  match entries.find? (pairOf claim) with
  | some existing =>
    if stampOf claim < stampOf existing then entries else entries.insert (pairOf claim) claim
  | none => entries.insert (pairOf claim) claim

def apply (claims : List Claim) : CurrentProjection :=
  { projection with entries := claims.foldl applyClaim projection.entries }

def toStored : StoredProjection :=
  { watermark := projection.watermark, status := projection.status
    lastGrounded := projection.lastGrounded, entries := projection.entries.values }

def fromStored (stored : StoredProjection) : CurrentProjection :=
  { watermark := stored.watermark, status := stored.status
    lastGrounded := stored.lastGrounded, entries := stored.entries.foldl applyClaim .empty }

end CurrentProjection

def currentProjection : String := "current"

/-- What the differences say about a pair. -/
def pairText (pair : Pair) : String := (ofLex pair).1 ++ "/" ++ (ofLex pair).2

def heldText (claim : Claim) : String :=
  quoted claim.object ++ " at (" ++ toString claim.validFrom ++ ", " ++ toString claim.txTime ++ ")"

/-- Both zeros are equal, and nothing is equal to what is not a number. -/
def F32.equals (a b : F32) : Bool :=
  a.val % 2 ^ 31 ≤ 0x7F800000 && (a = b || a.val % 2 ^ 31 = 0 && b.val % 2 ^ 31 = 0)

def Claim.equals (a b : Claim) : Bool :=
  (match a.confidence, b.confidence with
    | some x, some y => F32.equals x y
    | x, y => x = y) &&
  { a with confidence := none } = { b with confidence := none }

def difference (recomputed incremental : SortedMap Pair Claim) : List String :=
  (recomputed.toList.filterMap fun entry =>
    match incremental.find? entry.1 with
    | none => some (pairText entry.1 ++ ": missing from projection")
    | some held =>
      if Claim.equals held entry.2 then none
      else some (pairText entry.1 ++ ": projection holds " ++ heldText held ++
        ", recomputation holds " ++ heldText entry.2)) ++
  incremental.keys.filterMap fun pair =>
    if recomputed.contains pair then none
    else some (pairText pair ++ ": absent from recomputation")

/-- The stored projection, or the empty one. -/
def loadCurrent : Option StoredProjection → CurrentProjection
  | some stored => .fromStored stored
  | none => .empty

/-- A quarantined projection must be reset. -/
def requireActive : Except Error Unit :=
  match projection.status with
  | .quarantined at_ _ => .error (.quarantined ("projection `" ++ currentProjection ++
      "` quarantined at " ++ toString at_ ++ "; reset to recover"))
  | .active => .ok ()

def rebuildCurrent (spaces : ClaimSpaces) (stored : Option StoredProjection) :
    Except Error (RebuildOutcome × StoredProjection) := do
  let projection := loadCurrent stored
  requireActive projection
  let start := projection.watermark
  let stop := spaces.watermark
  let interval ← claimsInRange spaces start stop
  let projection := { projection.apply interval with watermark := stop }
  return ({ start, stop, applied := interval.length }, projection.toStored)

/-- The digest is FNV-1a over the serialized entries. -/
def groundCurrent (digest : List Claim → Nat) (spaces : ClaimSpaces)
    (stored : Option StoredProjection) (at_ : Nat) :
    Except Error (GroundingReport × StoredProjection) := do
  let projection := loadCurrent stored
  requireActive projection
  let interval ← claimsInRange spaces 0 projection.watermark
  let recomputed := CurrentProjection.empty.apply interval
  let differences := difference recomputed.entries projection.entries
  if differences = [] then
    let stamp : GroundedStamp :=
      { at_, sequence := projection.watermark, digest := digest projection.entries.values }
    return (.grounded stamp, { projection with lastGrounded := some stamp }.toStored)
  else
    return (.divergence differences,
      { projection with status := .quarantined at_ differences }.toStored)

/-! ### The fold -/

def project (claims : List Claim) : SortedMap Pair Claim :=
  claims.foldl CurrentProjection.applyClaim .empty

/-- The last of the newest claims of a pair. -/
structure Newest (claims : List Claim) (pair : Pair) (claim : Claim) : Prop where
  isLast : last claimKey claims (claimKey claim) = some claim
  ofPair : pairOf claim = pair
  newest : ∀ other ∈ claims, pairOf other = pair →
    CurrentProjection.stampOf other ≤ CurrentProjection.stampOf claim

open CurrentProjection (stampOf applyClaim)

theorem claimKey_eq_iff {a b : Claim} :
    claimKey a = claimKey b ↔ pairOf a = pairOf b ∧ stampOf a = stampOf b := by
  simp [claimKey, pairOf, stampOf, Subtype.ext_iff, and_assoc]

theorem Newest.unique {claims : List Claim} {pair : Pair} {a b : Claim} (ha : Newest claims pair a)
    (hb : Newest claims pair b) : a = b := by
  have hstamp : stampOf a = stampOf b :=
    le_antisymm (hb.newest a (mem_of_last ha.isLast).1 ha.ofPair)
      (ha.newest b (mem_of_last hb.isLast).1 hb.ofPair)
  have hkey : claimKey a = claimKey b := claimKey_eq_iff.mpr ⟨ha.ofPair.trans hb.ofPair.symm, hstamp⟩
  exact Option.some.inj (ha.isLast.symm.trans (hkey ▸ hb.isLast))

/-- The fold keeps the newest claim of a pair, if there is one. -/
theorem project_spec (claims : List Claim) (pair : Pair) :
    (project claims).find? pair = none ∧ (∀ claim ∈ claims, pairOf claim ≠ pair) ∨
    ∃ claim, (project claims).find? pair = some claim ∧ Newest claims pair claim := by
  induction claims using List.reverseRecOn with
  | nil => exact .inl ⟨rfl, by simp⟩
  | append_singleton claims claim ih =>
    have hfold : project (claims ++ [claim]) = applyClaim (project claims) claim :=
      foldl_concat ..
    rw [hfold]
    by_cases hpair : pairOf claim = pair
    · -- the claim is the newest one, or the old one still is
      have hnew : (∀ other ∈ claims, pairOf other = pair → stampOf other ≤ stampOf claim) →
          Newest (claims ++ [claim]) pair claim := by
        intro hnewest
        refine ⟨by rw [last_concat, if_pos rfl], hpair, ?_⟩
        intro other hother hsame
        rcases mem_append.mp hother with hother | hother
        · exact hnewest other hother hsame
        · rw [mem_singleton.mp hother]
      right
      rcases ih with ⟨hnone, hall⟩ | ⟨held, hheld, hnewest⟩
      · refine ⟨claim, ?_, hnew fun other hother hsame => absurd hsame (hall other hother)⟩
        rw [applyClaim, hpair, hnone]
        exact find?_insert_self ..
      · rw [applyClaim, hpair, hheld]
        dsimp only
        by_cases hlt : stampOf claim < stampOf held
        · rw [if_pos hlt]
          refine ⟨held, hheld, ?_, hnewest.ofPair, ?_⟩
          · have hkey : claimKey claim ≠ claimKey held := fun h =>
              absurd (claimKey_eq_iff.mp h).2 (ne_of_lt hlt)
            rw [last_concat, if_neg hkey]
            exact hnewest.isLast
          · intro other hother hsame
            rcases mem_append.mp hother with hother | hother
            · exact hnewest.newest other hother hsame
            · rw [mem_singleton.mp hother]
              exact hlt.le
        · rw [if_neg hlt]
          refine ⟨claim, find?_insert_self .., hnew fun other hother hsame => ?_⟩
          exact (hnewest.newest other hother hsame).trans (not_lt.mp hlt)
    · have hsame : (applyClaim (project claims) claim).find? pair =
          (project claims).find? pair := by
        rw [applyClaim]
        split
        · split
          · rfl
          · exact find?_insert_of_ne _ _ (Ne.symm hpair)
        · exact find?_insert_of_ne _ _ (Ne.symm hpair)
      rw [hsame]
      rcases ih with ⟨hnone, hall⟩ | ⟨held, hheld, hnewest⟩
      · refine .inl ⟨hnone, fun other hother => ?_⟩
        rcases mem_append.mp hother with hother | hother
        · exact hall other hother
        · rwa [mem_singleton.mp hother]
      · refine .inr ⟨held, hheld, ?_, hnewest.ofPair, ?_⟩
        · have hkey : claimKey claim ≠ claimKey held := fun h =>
            hpair ((claimKey_eq_iff.mp h).1.trans hnewest.ofPair)
          rw [last_concat, if_neg hkey]
          exact hnewest.isLast
        · intro other hother hother'
          rcases mem_append.mp hother with hother | hother
          · exact hnewest.newest other hother hother'
          · rw [mem_singleton.mp hother] at hother'
            exact absurd hother' hpair

theorem find?_project {claims : List Claim} {pair : Pair} {claim : Claim} :
    (project claims).find? pair = some claim ↔ Newest claims pair claim := by
  rcases project_spec claims pair with ⟨hnone, hall⟩ | ⟨held, hheld, hnewest⟩
  · rw [hnone]
    refine ⟨nofun, fun h => absurd h.ofPair ?_⟩
    exact hall claim (mem_of_last h.isLast).1
  · rw [hheld, Option.some.injEq]
    exact ⟨fun h => h ▸ hnewest, fun h => hnewest.unique h⟩

/-- The projection depends only on what a table of the claims would hold. -/
theorem project_congr {claims claims' : List Claim}
    (h : ∀ key, last claimKey claims key = last claimKey claims' key) :
    project claims = project claims' := by
  have hnewest : ∀ {claims claims' : List Claim},
      (∀ key, last claimKey claims key = last claimKey claims' key) →
      ∀ {pair claim}, Newest claims pair claim → Newest claims' pair claim := by
    intro claims claims' h pair claim hnewest
    refine ⟨(h _).symm.trans hnewest.isLast, hnewest.ofPair, ?_⟩
    intro other hother hsame
    obtain ⟨stored, hstored⟩ := exists_last claimKey hother
    rw [← h] at hstored
    obtain ⟨hmem, hkey⟩ := mem_of_last hstored
    obtain ⟨hpair, hstamp⟩ := claimKey_eq_iff.mp hkey
    rw [← hstamp]
    exact hnewest.newest stored hmem (hpair.trans hsame)
  refine ext_find? fun pair => Option.ext fun claim => ?_
  rw [find?_project, find?_project]
  exact ⟨hnewest h, hnewest fun key => (h key).symm⟩

/-- Storing the projection and loading it again changes nothing. -/
theorem project_values (claims : List Claim) : project (project claims).values = project claims := by
  have hmem : ∀ claim, claim ∈ (project claims).values ↔
      (project claims).find? (pairOf claim) = some claim := by
    intro claim
    rw [values, mem_map]
    constructor
    · rintro ⟨⟨pair, held⟩, hentry, rfl⟩
      rw [SortedMap.mem_toList_iff] at hentry
      have hpair := (find?_project.mp hentry).ofPair
      exact hpair.symm ▸ hentry
    · intro hfind
      exact ⟨(pairOf claim, claim), SortedMap.mem_toList_iff.mpr hfind, rfl⟩
  refine ext_find? fun pair => Option.ext fun claim => ?_
  rw [find?_project]
  constructor
  · intro h
    have hfind := (hmem claim).mp (mem_of_last h.isLast).1
    exact h.ofPair ▸ hfind
  · intro hfind
    have hpair := (find?_project.mp hfind).ofPair
    have hself : claim ∈ (project claims).values := (hmem claim).mpr (hpair.symm ▸ hfind)
    -- no other entry has the pair
    have honly : ∀ other ∈ (project claims).values, pairOf other = pair → other = claim := by
      intro other hother hsame
      have hother := (hmem other).mp hother
      rw [hsame, hfind] at hother
      exact (Option.some.inj hother).symm
    obtain ⟨stored, hstored⟩ := exists_last claimKey hself
    obtain ⟨hstoredMem, hkey⟩ := mem_of_last hstored
    have hsame := honly stored hstoredMem ((claimKey_eq_iff.mp hkey).1.trans hpair)
    refine ⟨hsame ▸ hstored, hpair, fun other hother hother' => ?_⟩
    rw [honly other hother hother']

theorem last_map_current {claims : List Claim} (key : ClaimKey) :
    last claimKey (claims.map (current claimKey log)) key =
      (last claimKey claims key).map (current claimKey log) := by
  rw [last, filter_map, getLast?_map, last]
  congr 3
  funext claim
  simp only [Function.comp_apply, key_current]

/-- A rebuild leads to the projection of the log, although it reads the interval back. -/
theorem project_rebuild (watermark : Nat) :
    ((log.drop watermark).map (current claimKey log)).foldl applyClaim
      (project (log.take watermark)) = project log := by
  have hfold : ((log.drop watermark).map (current claimKey log)).foldl applyClaim
      (project (log.take watermark)) =
      project (log.take watermark ++ (log.drop watermark).map (current claimKey log)) :=
    (foldl_append ..).symm
  rw [hfold]
  refine project_congr fun key => ?_
  rw [last_append, last_map_current]
  conv_rhs => rw [← take_append_drop watermark log, last_append]
  cases hlast : last claimKey (log.drop watermark) key with
  | none => rfl
  | some claim =>
    obtain ⟨hmem, hkey⟩ := mem_of_last hlast
    have hcurrent : current claimKey log claim = claim := by
      rw [current, hkey]
      conv_lhs => rw [← take_append_drop watermark log]
      rw [last_append, hlast]
      rfl
    rw [Option.map_some, hcurrent]

/-- The rows of the newest claims up to a watermark hold equal claims still. -/
def Undisturbed (log : List Claim) (watermark : Nat) : Prop :=
  ∀ pair claim, Newest (log.take watermark) pair claim →
    ∀ row, last claimKey log (claimKey claim) = some row → Claim.equals claim row

/-- Two projections have the same pairs, with equal claims. -/
def Alike (recomputed incremental : SortedMap Pair Claim) : Prop :=
  ∀ pair, Option.Rel (fun claim held => Claim.equals held claim = true)
    (recomputed.find? pair) (incremental.find? pair)

theorem alike_map_current_iff {watermark : Nat} :
    Alike (project ((log.take watermark).map (current claimKey log)))
      (project (log.take watermark)) ↔ Undisturbed log watermark := by
  -- reading back replaces the newest claim of a pair by what is stored in its place
  have hread : ∀ {pair claim}, Newest (log.take watermark) pair claim →
      Newest ((log.take watermark).map (current claimKey log)) pair (current claimKey log claim) := by
    intro pair claim h
    have hkey : claimKey (current claimKey log claim) = claimKey claim := key_current log claim
    obtain ⟨hpair, hstamp⟩ := claimKey_eq_iff.mp hkey
    refine ⟨?_, hpair.trans h.ofPair, ?_⟩
    · rw [hkey, last_map_current, h.isLast]
      rfl
    · intro other hother hsame
      obtain ⟨original, horiginal, rfl⟩ := mem_map.mp hother
      obtain ⟨hpair', hstamp'⟩ := claimKey_eq_iff.mp (key_current log original)
      rw [hstamp, hstamp']
      exact h.newest original horiginal (hpair'.symm.trans hsame)
  refine forall_congr' fun pair => ?_
  rcases project_spec (log.take watermark) pair with ⟨hnone, hall⟩ | ⟨claim, hfind, hnewest⟩
  · have habsent : (project ((log.take watermark).map (current claimKey log))).find? pair =
        none := by
      rcases project_spec ((log.take watermark).map (current claimKey log)) pair with
        ⟨habsent, -⟩ | ⟨claim, -, hnewest⟩
      · exact habsent
      · obtain ⟨original, horiginal, rfl⟩ := mem_map.mp (mem_of_last hnewest.isLast).1
        have hpair := (claimKey_eq_iff.mp (key_current log original)).1
        exact absurd (hpair.symm.trans hnewest.ofPair) (hall original horiginal)
    rw [hnone, habsent]
    refine iff_of_true .none fun claim hnewest => absurd hnewest.ofPair ?_
    exact hall claim (mem_of_last hnewest.isLast).1
  · have hrow := last_of_mem claimKey (mem_of_mem_take (mem_of_last hnewest.isLast).1)
    rw [hfind, find?_project.mpr (hread hnewest), Option.rel_some_some]
    constructor
    · intro hequal other hother row hlast
      obtain rfl := hnewest.unique hother
      exact Option.some.inj (hrow.symm.trans hlast) ▸ hequal
    · exact fun h => h claim hnewest _ hrow

theorem difference_eq_nil_iff {recomputed incremental : SortedMap Pair Claim} :
    difference recomputed incremental = [] ↔ Alike recomputed incremental := by
  rw [difference, append_eq_nil_iff, filterMap_eq_nil_iff, filterMap_eq_nil_iff]
  constructor
  · rintro ⟨hsame, habsent⟩ pair
    cases hfind : recomputed.find? pair with
    | some claim =>
      have hentry := hsame (pair, claim) (SortedMap.mem_toList_iff.mpr hfind)
      cases hheld : incremental.find? pair with
      | none => simp [hheld] at hentry
      | some held => exact .some (by simpa [hheld] using hentry)
    | none =>
      cases hheld : incremental.find? pair with
      | none => exact .none
      | some held =>
        have hkey := habsent pair (SortedMap.mem_keys_iff.mpr (by simp [hheld]))
        simp [SortedMap.contains, hfind] at hkey
  · intro halike
    refine ⟨fun entry hentry => ?_, fun pair hpair => ?_⟩
    · have hrel := halike entry.1
      rw [SortedMap.mem_toList_iff.mp hentry] at hrel
      cases hheld : incremental.find? entry.1 with
      | none =>
        rw [hheld] at hrel
        cases hrel
      | some held =>
        rw [hheld, Option.rel_some_some] at hrel
        simp [hrel]
    · obtain ⟨held, hheld⟩ := SortedMap.mem_keys_iff.mp hpair
      have hrel := halike pair
      rw [hheld] at hrel
      cases hfind : recomputed.find? pair with
      | none =>
        rw [hfind] at hrel
        cases hrel
      | some claim => simp [SortedMap.contains, hfind]

/-! ### Runs -/

inductive Call
  | request (request : Request)
  | rebuild
  | ground (at_ : Nat)

/-- The store with the bytes under the projection's key. -/
structure Site where
  state : State
  projection : Option StoredProjection

def Site.empty : Site := { state := State.empty, projection := none }

def Site.watermark (site : Site) : Nat := (loadCurrent site.projection).watermark

variable (externals : Externals) (digest : List Claim → Nat)

/-- A call that fails writes nothing. -/
def Site.call (site : Site) : Call → Site
  | .request request =>
    match request.prepare externals site.state with
    | .ok writes => { site with state := site.state.applyAll writes }
    | .error _ => site
  | .rebuild =>
    match rebuildCurrent site.state.claims site.projection with
    | .ok (_, stored) => { site with projection := some stored }
    | .error _ => site
  | .ground at_ =>
    match groundCurrent digest site.state.claims site.projection at_ with
    | .ok (_, stored) => { site with projection := some stored }
    | .error _ => site

def Site.grounding (site : Site) (at_ : Nat) : Except Error GroundingReport :=
  (groundCurrent digest site.state.claims site.projection at_).map Prod.fst

/-- The claims that a call gets sequence numbers for. -/
def Site.claims (site : Site) : Call → List Claim
  | .request request =>
    match request.prepare externals site.state with
    | .ok _ => request.claims site.state
    | .error _ => []
  | .rebuild => []
  | .ground _ => []

/-- Every grounding of a run reports that the projection is grounded. -/
def EveryGrounded (site : Site) : List Call → Prop
  | [] => True
  | call :: rest =>
    (∀ at_, call = .ground at_ → ∃ stamp, site.grounding digest at_ = .ok (.grounded stamp)) ∧
    EveryGrounded (site.call externals digest call) rest

/-- At every grounding of a run, the rows of the newest claims up to the watermark hold
claims that are equal to those that were appended, as their texts are read back. -/
def EveryUndisturbed (log : List Claim) (site : Site) : List Call → Prop
  | [] => True
  | call :: rest =>
    (∀ at_, call = .ground at_ → Undisturbed (log.map Claim.stored) site.watermark) ∧
    EveryUndisturbed (log ++ site.claims externals call) (site.call externals digest call) rest

variable {externals digest}

/-- The projection is active and is the fold of the claims up to its watermark. -/
structure Site.Honest (externals : Externals) (site : Site) (log : List Claim) : Prop where
  logs : Logs externals log site.state
  active : (loadCurrent site.projection).status = .active
  within : site.watermark ≤ log.length
  bounded : site.watermark < u64Max
  entries : (loadCurrent site.projection).entries =
    project ((log.map Claim.stored).take site.watermark)

theorem Site.honest_empty : Site.empty.Honest externals [] :=
  ⟨.empty, rfl, le_refl _, by decide, rfl⟩

theorem loadCurrent_toStored {projection : CurrentProjection} {claims : List Claim}
    (h : projection.entries = project claims) :
    loadCurrent (some projection.toStored) = projection := by
  have hentries : projection.entries.values.foldl applyClaim .empty = projection.entries := by
    rw [h]
    exact project_values claims
  show CurrentProjection.mk projection.watermark projection.status projection.lastGrounded
    (projection.entries.values.foldl applyClaim .empty) = projection
  rw [hentries]

/-- A projection that is the fold up to its watermark may be stored. -/
theorem Site.honest_of_stored {state : State} (hlogs : Logs externals log state)
    {projection : CurrentProjection} (hactive : projection.status = .active)
    (hwithin : projection.watermark ≤ log.length) (hbounded : projection.watermark < u64Max)
    (hentries : projection.entries =
      project ((log.map Claim.stored).take projection.watermark)) :
    Site.Honest externals { state, projection := some projection.toStored } log := by
  have hload := loadCurrent_toStored hentries
  have hwatermark : ({ state, projection := some projection.toStored } : Site).watermark =
      projection.watermark := congrArg CurrentProjection.watermark hload
  refine ⟨hlogs, ?_, ?_, ?_, ?_⟩
  · exact (congrArg CurrentProjection.status hload).trans hactive
  · rwa [hwatermark]
  · rwa [hwatermark]
  · rw [hwatermark]
    exact (congrArg CurrentProjection.entries hload).trans hentries

variable {site : Site}

section

variable (h : site.Honest externals log)

include h

theorem Site.Honest.request {request : Request} {writes : List Write}
    (hprepare : request.prepare externals site.state = .ok writes) :
    Site.Honest externals { site with state := site.state.applyAll writes }
      (log ++ request.claims site.state) := by
  refine ⟨h.logs.step hprepare, h.active, ?_, h.bounded, ?_⟩
  · rw [length_append]
    exact h.within.trans (Nat.le_add_right ..)
  · show _ = project (((log ++ request.claims site.state).map Claim.stored).take site.watermark)
    rw [map_append, take_append_of_le_length (by rw [length_map]; exact h.within)]
    exact h.entries

theorem Site.Honest.rebuild {outcome : RebuildOutcome} {stored : StoredProjection}
    (hrebuild : rebuildCurrent site.state.claims site.projection = .ok (outcome, stored)) :
    Site.Honest externals { site with projection := some stored } log := by
  have hholds := h.logs.holds
  simp only [rebuildCurrent, bind_eq_ok] at hrebuild
  obtain ⟨_, -, interval, hinterval, hrebuild⟩ := hrebuild
  obtain ⟨-, rfl⟩ := Prod.mk.inj (Except.ok.inj hrebuild)
  rw [hholds.watermark] at hinterval ⊢
  have hbound : (log.map Claim.stored).length < u64Max := by
    by_contra hfull
    rw [← Site.watermark, claimsInRange_full hholds h.bounded (Nat.le_of_not_lt hfull)] at hinterval
    cases hinterval
  rw [claimsInRange_eq hholds (by rwa [Nat.min_self]), take_length] at hinterval
  obtain rfl := Except.ok.inj hinterval
  refine Site.honest_of_stored h.logs h.active (length_map ..).le hbound ?_
  rw [take_length, CurrentProjection.apply, h.entries]
  exact project_rebuild site.watermark

/-- A grounding compares the projection with the fold of what is read back. -/
theorem Site.Honest.groundCurrent_eq (at_ : Nat) :
    groundCurrent digest site.state.claims site.projection at_ =
      let projection := loadCurrent site.projection
      let differences := difference
        (project (((log.map Claim.stored).take site.watermark).map
          (current claimKey (log.map Claim.stored)))) projection.entries
      let stamp : GroundedStamp :=
        { at_, sequence := projection.watermark, digest := digest projection.entries.values }
      if differences = [] then
        .ok (.grounded stamp, { projection with lastGrounded := some stamp }.toStored)
      else
        .ok (.divergence differences,
          { projection with status := .quarantined at_ differences }.toStored) := by
  have hactive : requireActive (loadCurrent site.projection) = .ok () := by
    rw [requireActive, h.active]
  have hread : claimsInRange site.state.claims 0 (loadCurrent site.projection).watermark =
      .ok (((log.map Claim.stored).take site.watermark).map
        (current claimKey (log.map Claim.stored))) :=
    claimsInRange_eq h.logs.holds (lt_of_le_of_lt (Nat.min_le_left ..) h.bounded)
  rw [groundCurrent, hactive, hread]
  rfl

theorem Site.Honest.differences_eq_nil_iff :
    difference (project (((log.map Claim.stored).take site.watermark).map
        (current claimKey (log.map Claim.stored)))) (loadCurrent site.projection).entries = [] ↔
      Undisturbed (log.map Claim.stored) site.watermark := by
  rw [difference_eq_nil_iff, h.entries, alike_map_current_iff]

theorem Site.Honest.grounding_iff (at_ : Nat) :
    (∃ stamp, site.grounding digest at_ = .ok (.grounded stamp)) ↔
      Undisturbed (log.map Claim.stored) site.watermark := by
  rw [Site.grounding, h.groundCurrent_eq, ← h.differences_eq_nil_iff]
  dsimp only
  split
  · next hnone => exact ⟨fun _ => hnone, fun _ => ⟨_, rfl⟩⟩
  · next hsome => exact ⟨nofun, fun hnone => absurd hnone hsome⟩

/-- One call: only a grounding that finds a difference ends an honest run. -/
theorem Site.Honest.call (call : Call)
    (hground : ∀ at_, call = .ground at_ →
      Undisturbed (log.map Claim.stored) site.watermark) :
    (site.call externals digest call).Honest externals (log ++ site.claims externals call) := by
  cases call with
  | request request =>
    cases hprepare : request.prepare externals site.state with
    | ok writes =>
      rw [Site.call, Site.claims, hprepare]
      exact h.request hprepare
    | error error =>
      rw [Site.call, Site.claims, hprepare, append_nil]
      exact h
  | rebuild =>
    rw [Site.claims, append_nil, Site.call]
    cases hrebuild : rebuildCurrent site.state.claims site.projection with
    | ok result => exact h.rebuild hrebuild
    | error error => exact h
  | ground at_ =>
    rw [Site.claims, append_nil, Site.call, h.groundCurrent_eq]
    rw [if_pos (h.differences_eq_nil_iff.mpr (hground at_ rfl))]
    exact Site.honest_of_stored h.logs h.active h.within h.bounded h.entries

end

/-- The projection is rebuilt between two claims with one key. -/
def storedOver : List Call :=
  [.request (.append [boilsAt "99"]), .rebuild, .request (.append [boilsAt "100"]), .ground 5]

/-- A claim of a later start does not disturb the projection, and neither does the other
zero as confidence. -/
def supersededLater : List Call :=
  [.request (.append [{ boilsAt "99" with confidence := some ⟨0, Nat.two_pow_pos 32⟩ }]), .rebuild,
    .request (.append [{ boilsAt "100" with validFrom := 2 },
      { boilsAt "99" with confidence := some ⟨0x80000000, by decide⟩ }]), .ground 5]

end Rrflow.Store

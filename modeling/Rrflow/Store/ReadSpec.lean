import Rrflow.Store.StampSpec

/-!
What a versioned read returns.

In a whole state a read at a valid stamp never fails, and it returns the visible
changes whose entries lie in the areas that it reads.
-/

namespace Rrflow.Store

open Kernel Checks List SortedMap LogSpaces

variable {externals : Externals}

variable {log : List RuntimeChange} {change : RuntimeChange} {area : Area}
  {selected : SortedMap Nat RuntimeChange} {state : State} {scope : ScopeId} {place : VersionPlace}
  {source : RuntimeVersionedSource} {step : List (RuntimeVersionedSource × Area)}
  {digests : Digests} {read : ReadStamp}

/-- Whether a version entry of a scope lies in an area. -/
def Area.holds (scope : ScopeId) : Area → VersionPlace → Bool
  | .schema, .schema key => (ofLex key).1 = scope
  | .claims predicate, .claim key =>
    (ofLex key).1 = scope && compatible predicate (some (ofLex (ofLex key).2).1)
  | .versions space kind start stop, .version space' key =>
    space = space' && (ofLex key).1 = scope && inInterval kind start stop (ofLex (ofLex key).2).1
  | .edges direction node kind, .edge direction' key =>
    direction = direction' && inAdjacency scope node kind (ofLex key).1
  | _, _ => false

theorem mem_scanArea :
    (place, change) ∈ scanArea state scope area ↔
      state.logged.versionAt place = some change ∧ area.holds scope place = true := by
  cases area with
  | schema =>
    cases place with
    | schema key =>
      simp [scanArea, Area.holds, versionAt, mem_toList_iff]
    | _ => simp [scanArea, Area.holds]
  | claims predicate =>
    cases place with
    | claim key =>
      simp [scanArea, Area.holds, versionAt, mem_toList_iff]
    | _ => simp [scanArea, Area.holds]
  | versions space kind start stop =>
    cases place with
    | version space' key =>
      by_cases hspace : space = space'
      · subst hspace
        simp [scanArea, Area.holds, versionAt, mem_toList_iff]
      · simp [scanArea, Area.holds, hspace]
    | _ => simp [scanArea, Area.holds]
  | edges direction node kind =>
    cases place with
    | edge direction' key =>
      by_cases hdirection : direction = direction'
      · subst hdirection
        simp [scanArea, Area.holds, versionAt, mem_toList_iff]
      · simp [scanArea, Area.holds, hdirection]
    | _ => simp [scanArea, Area.holds]

def RuntimeVersionedSource.isAdjacency : RuntimeVersionedSource → Bool
  | .adjacency .. => true
  | _ => false

theorem expectedVersionKey_of_accepts {address : VersionAddress}
    (haddress : versionAddress change = .ok address)
    (haccepts : sourceAcceptsAddress source address = .ok true) :
    expectedVersionKey source area change = .ok (.version address.space
      (versionKey change.scope address.reference address.effectiveAt change.cursor)) := by
  have hschema : ∀ registry, change.mutation ≠ .schema registry := by
    intro registry hmutation
    simp [versionAddress, hmutation] at haddress
  have hclaim : ∀ claim, change.mutation ≠ .claim claim := by
    intro claim hmutation
    simp [versionAddress, hmutation] at haddress
  unfold expectedVersionKey
  split
  · exact absurd ‹_› (hschema _)
  · exact absurd ‹_› (hclaim _)
  · simp [haddress, haccepts, bind, Except.bind, ensure, pure, Except.pure]

theorem inInterval_identity {reference other : RuntimeRef} :
    inInterval (some reference.kind) (.before reference.id) (.after reference.id) other = true ↔
      reference = other := by
  simp only [inInterval, compatible, Cut.lt, Bool.and_eq_true, decide_eq_true_eq, Bool.not_eq_true',
    decide_eq_false_iff_not, not_lt]
  constructor
  · rintro ⟨⟨hkind, hge⟩, hle⟩
    exact ofLex.injective (Prod.ext hkind (le_antisymm hge hle))
  · rintro rfl
    exact ⟨⟨rfl, le_rfl⟩, le_rfl⟩

theorem expectedVersionKey_of_entryOf {spaces : LogSpaces}
    (hentry : spaces.entryOf change = some place) (hsource : source.isAdjacency = false)
    (harea : sourceInterval source = .ok area) (hholds : area.holds change.scope place = true) :
    expectedVersionKey source area change = .ok place := by
  cases source with
  | schema =>
    obtain rfl := Except.ok.inj harea
    cases place with
    | schema key =>
      obtain ⟨⟨registry, hmutation⟩, rfl⟩ := entryOf_eq_schema hentry
      simp [expectedVersionKey, hmutation]
    | _ => simp [Area.holds] at hholds
  | claims predicate =>
    obtain rfl := Except.ok.inj harea
    cases place with
    | claim key =>
      obtain ⟨claim, hmutation, rfl⟩ := entryOf_eq_claim hentry
      have hcompatible : compatible predicate (some claim.predicate) = true := by
        simpa [Area.holds, claimVersionKey] using hholds
      simp [expectedVersionKey, hmutation, hcompatible]
    | _ => simp [Area.holds] at hholds
  | family space kind =>
    obtain rfl := Except.ok.inj harea
    cases place with
    | version space' key =>
      obtain ⟨reference, effectiveAt, haddress, rfl⟩ := entryOf_eq_version hentry
      refine expectedVersionKey_of_accepts haddress ?_
      simp only [Area.holds, versionKey, ofLex_toLex, Bool.and_eq_true, decide_eq_true_eq,
        inInterval] at hholds
      simp [sourceAcceptsAddress, hholds]
    | _ => simp [Area.holds] at hholds
  | identity model reference =>
    simp only [sourceInterval, bind_eq_ok] at harea
    obtain ⟨space, hspace, harea⟩ := harea
    obtain rfl := Except.ok.inj harea
    cases place with
    | version space' key =>
      obtain ⟨other, effectiveAt, haddress, rfl⟩ := entryOf_eq_version hentry
      refine expectedVersionKey_of_accepts haddress ?_
      simp only [Area.holds, versionKey, ofLex_toLex, Bool.and_eq_true, decide_eq_true_eq,
        inInterval_identity] at hholds
      obtain ⟨⟨rfl, -⟩, rfl⟩ := hholds
      simp [sourceAcceptsAddress, hspace, bind, Except.bind, pure, Except.pure]
    | _ => simp [Area.holds] at hholds
  | identityRange model kind lower upper =>
    simp only [sourceInterval, bind_eq_ok] at harea
    obtain ⟨_, -, space, hspace, harea⟩ := harea
    obtain rfl := Except.ok.inj harea
    cases place with
    | version space' key =>
      obtain ⟨other, effectiveAt, haddress, rfl⟩ := entryOf_eq_version hentry
      refine expectedVersionKey_of_accepts haddress ?_
      simp only [Area.holds, versionKey, ofLex_toLex, Bool.and_eq_true, decide_eq_true_eq] at hholds
      obtain ⟨⟨rfl, -⟩, hinterval⟩ := hholds
      -- an interval that is not empty starts at its lower bound
      have hlower : inInterval (some kind) lower.lowerCut upper.upperCut other = true := by
        split at hinterval
        · exact hinterval
        · simp only [inInterval, Bool.and_eq_true, Bool.not_eq_true'] at hinterval
          rw [hinterval.1.2] at hinterval
          simp at hinterval
      simp [sourceAcceptsAddress, hspace, hlower, bind, Except.bind, pure, Except.pure]
    | _ => simp [Area.holds] at hholds
  | adjacency => cases hsource

theorem scope_of_holds {spaces : LogSpaces} (hentry : spaces.entryOf change = some place)
    (hholds : area.holds scope place = true) : scope = change.scope := by
  cases place with
  | schema key =>
    obtain ⟨-, rfl⟩ := entryOf_eq_schema hentry
    cases area with
    | schema => exact (of_decide_eq_true hholds).symm
    | _ => simp [Area.holds] at hholds
  | claim key =>
    obtain ⟨claim, -, rfl⟩ := entryOf_eq_claim hentry
    cases area with
    | claims predicate =>
      simp only [Area.holds, Bool.and_eq_true] at hholds
      exact (of_decide_eq_true hholds.1).symm
    | _ => simp [Area.holds] at hholds
  | version space key =>
    obtain ⟨reference, effectiveAt, -, rfl⟩ := entryOf_eq_version hentry
    cases area with
    | versions space' kind start stop =>
      simp only [Area.holds, Bool.and_eq_true] at hholds
      exact (of_decide_eq_true hholds.1.2).symm
    | _ => simp [Area.holds] at hholds
  | edge direction key => cases (cursor_of_entryOf hentry).2

theorem isEdge_of_holds (hsource : source.isAdjacency = false)
    (harea : sourceInterval source = .ok area) (hholds : area.holds scope place = true) :
    place.isEdge = false := by
  cases place with
  | edge direction key =>
    cases source with
    | schema | claims | family =>
      obtain rfl := Except.ok.inj harea
      simp [Area.holds] at hholds
    | identity =>
      simp only [sourceInterval, bind_eq_ok] at harea
      obtain ⟨space, -, harea⟩ := harea
      obtain rfl := Except.ok.inj harea
      simp [Area.holds] at hholds
    | identityRange =>
      simp only [sourceInterval, bind_eq_ok] at harea
      obtain ⟨_, -, space, -, harea⟩ := harea
      obtain rfl := Except.ok.inj harea
      simp [Area.holds] at hholds
    | adjacency => cases hsource
  | _ => rfl

theorem validateVersionEntry_of_entered (h : Chain digests 0 none log)
    (hsource : source.isAdjacency = false) (harea : sourceInterval source = .ok area)
    (hmem : change ∈ log) (hentry : entered log change = some place)
    (hholds : area.holds read.scope place = true) (hcursor : change.cursor ≤ read.commitCursor) :
    validateVersionEntry digests source area read place change = .ok () := by
  have hscope : change.scope = read.scope := (scope_of_holds hentry hholds).symm
  have hpositive : change.cursor ≠ 0 := by
    have := h.cursor_bounds hmem
    omega
  have hexpected : expectedVersionKey source area change = .ok place :=
    expectedVersionKey_of_entryOf hentry hsource harea (hscope ▸ hholds)
  simp only [validateVersionEntry, bind_eq_ok, ensure_eq_ok]
  refine ⟨(), ⟨hscope, hpositive, hcursor⟩, (), h.verifyDigest hmem, ?_⟩
  split
  · cases hsource
  · simp [hexpected, bind, Except.bind, ensure]

/-! ### Reads -/

def Collects (log : List RuntimeChange) (p : RuntimeChange → Prop)
    (selected : SortedMap Nat RuntimeChange) : Prop :=
  ∀ cursor change, selected.find? cursor = some change ↔
    change ∈ log ∧ change.cursor = cursor ∧ p change

theorem Collects.empty : Collects log (fun _ => False) .empty := by
  intro cursor change
  simp

theorem Collects.congr {p q : RuntimeChange → Prop} (h : Collects log p selected)
    (hiff : ∀ change ∈ log, (p change ↔ q change)) : Collects log q selected := by
  intro cursor change
  rw [h]
  exact and_congr_right fun hmem => and_congr_right fun _ => hiff change hmem

theorem Collects.values_eq (h : Chain digests 0 none log) {p : RuntimeChange → Bool}
    (hselected : Collects log (p · = true) selected) :
    selected.values = log.filter p := by
  let filtered : SortedMap Nat RuntimeChange :=
    ⟨(log.filter p).map fun change => (change.cursor, change),
      pairwise_map.mpr (h.pairwise.filter _)⟩
  have heq : selected = filtered := by
    refine ext_find? fun cursor => Option.ext fun change => ?_
    rw [hselected, ← mem_toList_iff]
    show _ ↔ (cursor, change) ∈ (log.filter p).map fun change => (change.cursor, change)
    simp only [mem_map, mem_filter, Prod.mk.injEq]
    constructor
    · rintro ⟨hmem, hcursor, hp⟩
      exact ⟨change, ⟨hmem, hp⟩, hcursor, rfl⟩
    · rintro ⟨other, ⟨hmem, hp⟩, hcursor, rfl⟩
      exact ⟨hmem, hcursor, hp⟩
  rw [heq, values]
  show ((log.filter p).map fun change => (change.cursor, change)).map Prod.snd = _
  rw [map_map]
  exact map_id _

variable {p : RuntimeChange → Prop}

theorem Collects.insertVersion (h : Chain digests 0 none log) (hselected : Collects log p selected)
    (hmem : change ∈ log) :
    ∃ selected', insertVersion selected change = .ok selected' ∧
      Collects log (fun other => p other ∨ other = change) selected' := by
  unfold Store.insertVersion
  cases hfind : selected.find? change.cursor with
  | none =>
    refine ⟨_, rfl, fun cursor other => ?_⟩
    rw [find?_insert]
    by_cases hcursor : cursor = change.cursor
    · subst hcursor
      rw [if_pos rfl, Option.some.injEq]
      constructor
      · rintro rfl
        exact ⟨hmem, rfl, .inr rfl⟩
      · rintro ⟨hother, heq, -⟩
        exact h.eq_of_cursor_eq hmem hother heq.symm
    · rw [if_neg hcursor, hselected]
      refine and_congr_right fun _ => and_congr_right fun hother => ?_
      refine (or_iff_left ?_).symm
      rintro rfl
      exact hcursor hother.symm
  | some found =>
    obtain ⟨hfound, hcursor, hp⟩ := (hselected _ _).mp hfind
    obtain rfl := h.eq_of_cursor_eq hfound hmem hcursor
    refine ⟨selected, by simp [ensure, bind, Except.bind, pure, Except.pure], ?_⟩
    refine hselected.congr fun other _ => ?_
    refine (or_iff_left_of_imp ?_).symm
    rintro rfl
    exact hp

theorem Collects.foldlM_readEntry (h : Chain digests 0 none log)
    (hsource : source.isAdjacency = false) (harea : sourceInterval source = .ok area)
    (entries : List (VersionPlace × RuntimeChange))
    (hentries : ∀ entry ∈ entries, entry.2 ∈ log ∧ entered log entry.2 = some entry.1 ∧
      area.holds read.scope entry.1 = true)
    (hsurvives : ∀ entry ∈ entries, entry.2.cursor ≤ read.commitCursor → entry.2.Survives digests)
    (hselected : Collects log p selected) :
    ∃ selected', entries.foldlM (readEntry digests source area read) selected = .ok selected' ∧
      Collects log (fun change => p change ∨ change.cursor ≤ read.commitCursor ∧
        ∃ place, (place, change) ∈ entries) selected' := by
  induction entries generalizing p selected with
  | nil => exact ⟨selected, rfl, hselected.congr fun change _ => by simp⟩
  | cons entry rest ih =>
    obtain ⟨hmem, hplace, hholds⟩ := hentries entry (mem_cons_self ..)
    have hrest := fun other hother => hentries other (mem_cons_of_mem _ hother)
    have hrest' := fun other hother => hsurvives other (mem_cons_of_mem _ hother)
    rw [foldlM_cons, readEntry]
    by_cases hcursor : read.commitCursor < entry.2.cursor
    -- an entry after the stamp is passed over
    · have hreread : read.commitCursor < (entry.2.reread digests.rounded).cursor := hcursor
      rw [if_pos hreread]
      obtain ⟨selected', hfold, hcollects⟩ := ih hrest hrest' hselected
      refine ⟨selected', hfold, hcollects.congr fun change _ => ?_⟩
      refine or_congr_right (and_congr_right fun hle => exists_congr fun place => ?_)
      rw [mem_cons, or_iff_right]
      rintro rfl
      exact absurd hcursor hle.not_gt
    · have hsurvive : entry.2.reread digests.rounded = entry.2 :=
        hsurvives entry (mem_cons_self ..) (not_lt.mp hcursor)
      simp only [hsurvive]
      rw [if_neg hcursor, validateVersionEntry_of_entered h hsource harea hmem hplace hholds
        (not_lt.mp hcursor)]
      obtain ⟨middle, hinsert, hmiddle⟩ := hselected.insertVersion h hmem
      obtain ⟨selected', hfold, hcollects⟩ := ih hrest hrest' hmiddle
      refine ⟨selected', ?_, hcollects.congr fun change _ => ?_⟩
      · show (Store.insertVersion selected entry.2 >>= _) = _
        rw [hinsert]
        exact hfold
      · constructor
        · rintro ((hp | rfl) | ⟨hle, place, hplace'⟩)
          · exact .inl hp
          · exact .inr ⟨not_lt.mp hcursor, entry.1, mem_cons_self ..⟩
          · exact .inr ⟨hle, place, mem_cons_of_mem _ hplace'⟩
        · rintro (hp | ⟨hle, place, hplace'⟩)
          · exact .inl (.inl hp)
          · rcases mem_cons.mp hplace' with heq | hplace'
            · exact .inl (.inr (by rw [← heq]))
            · exact .inr ⟨hle, place, hplace'⟩

def isRead (log : List RuntimeChange) (scope : ScopeId)
    (step : List (RuntimeVersionedSource × Area)) (change : RuntimeChange) : Bool :=
  (entered log change).any fun place => step.any fun source => source.2.holds scope place

theorem scope_of_isRead (h : isRead log scope step change = true) : scope = change.scope := by
  simp only [isRead, Option.any_eq_true, any_eq_true] at h
  obtain ⟨place, hentry, source, -, hholds⟩ := h
  exact scope_of_holds hentry hholds

theorem Whole.readSource (h : Whole externals state) {source : RuntimeVersionedSource × Area}
    (hsource : source.1.isAdjacency = false) (harea : sourceInterval source.1 = .ok source.2)
    (read : ReadStamp) (hselected : Collects state.log p selected)
    (hsurvives : ∀ change ∈ state.log, change.cursor ≤ read.commitCursor →
      isRead state.log read.scope [source] change = true → change.Survives externals.digests) :
    ∃ selected', readSource externals.digests state read selected source = .ok selected' ∧
      Collects state.log (fun change => p change ∨ change.cursor ≤ read.commitCursor ∧
        isRead state.log read.scope [source] change = true) selected' := by
  have hversion : ∀ {place : VersionPlace} {change : RuntimeChange}, place.isEdge = false →
      (state.logged.versionAt place = some change ↔
        change ∈ state.log ∧ entered state.log change = some place) := by
    intro place change hedge
    rw [h.logged]
    exact versionAt_replay h.chain hedge
  have hedge : ∀ {place : VersionPlace}, source.2.holds read.scope place = true →
      place.isEdge = false := isEdge_of_holds hsource harea
  have hentries : ∀ entry ∈ scanArea state read.scope source.2, entry.2 ∈ state.log ∧
      entered state.log entry.2 = some entry.1 ∧ source.2.holds read.scope entry.1 = true := by
    rintro ⟨place, change⟩ hmem
    obtain ⟨hat, hholds⟩ := mem_scanArea.mp hmem
    obtain ⟨hlog, hentry⟩ := (hversion (hedge hholds)).mp hat
    exact ⟨hlog, hentry, hholds⟩
  obtain ⟨selected', hfold, hcollects⟩ := hselected.foldlM_readEntry h.chain hsource harea
    (scanArea state read.scope source.2) hentries (by
      intro entry hmem hcursor
      obtain ⟨hlog, hentry, hholds⟩ := hentries entry hmem
      exact hsurvives entry.2 hlog hcursor (by simp [isRead, hentry, hholds]))
  refine ⟨selected', hfold, hcollects.congr fun change hmem => ?_⟩
  refine or_congr_right (and_congr_right fun _ => ?_)
  simp only [isRead, Option.any_eq_true, any_cons, any_nil, Bool.or_false, mem_scanArea]
  constructor
  · rintro ⟨place, hat, hholds⟩
    exact ⟨place, ((hversion (hedge hholds)).mp hat).2, hholds⟩
  · rintro ⟨place, hentry, hholds⟩
    exact ⟨place, (hversion (hedge hholds)).mpr ⟨hmem, hentry⟩, hholds⟩

theorem isRead_cons {source : RuntimeVersionedSource × Area} :
    isRead log scope (source :: step) change = true ↔
      isRead log scope [source] change = true ∨ isRead log scope step change = true := by
  unfold isRead
  cases entered log change <;> simp

theorem Whole.foldlM_readSource (h : Whole externals state) (read : ReadStamp)
    (hstep : ∀ source ∈ step, source.1.isAdjacency = false ∧ sourceInterval source.1 = .ok source.2)
    (hselected : Collects state.log p selected)
    (hsurvives : ∀ change ∈ state.log, change.cursor ≤ read.commitCursor →
      isRead state.log read.scope step change = true → change.Survives externals.digests) :
    ∃ selected', step.foldlM (Store.readSource externals.digests state read) selected =
        .ok selected' ∧
      Collects state.log (fun change => p change ∨ change.cursor ≤ read.commitCursor ∧
        isRead state.log read.scope step change = true) selected' := by
  induction step generalizing p selected with
  | nil =>
    refine ⟨selected, rfl, hselected.congr fun change _ => ?_⟩
    cases hentered : entered state.log change <;> simp [isRead, hentered]
  | cons source rest ih =>
    obtain ⟨hsource, harea⟩ := hstep source (mem_cons_self ..)
    obtain ⟨middle, hmiddle, hcollects⟩ := h.readSource hsource harea read hselected
      fun change hmem hcursor hread => hsurvives change hmem hcursor (isRead_cons.mpr (.inl hread))
    obtain ⟨selected', hfold, hcollects'⟩ :=
      ih (fun other hother => hstep other (mem_cons_of_mem _ hother)) hcollects
        fun change hmem hcursor hread =>
          hsurvives change hmem hcursor (isRead_cons.mpr (.inr hread))
    refine ⟨selected', ?_, hcollects'.congr fun change _ => ?_⟩
    · rw [foldlM_cons, hmiddle]
      exact hfold
    · have hcons : isRead state.log read.scope (source :: rest) change = true ↔ _ := isRead_cons
      rw [hcons, and_or_left, or_assoc]

theorem admitSources_eq_ok {sources : List RuntimeVersionedSource}
    (h : admitSources sources = .ok step) :
    ∀ source ∈ step, source.1 ∈ sources ∧ sourceInterval source.1 = .ok source.2 := by
  suffices hgeneral : ∀ (rest : List RuntimeVersionedSource)
      (admitted : List (RuntimeVersionedSource × Area)),
      (∀ source ∈ rest, source ∈ sources) →
      (∀ source ∈ admitted, source.1 ∈ sources ∧ sourceInterval source.1 = .ok source.2) →
      rest.foldlM admitSource admitted = .ok step →
      ∀ source ∈ step, source.1 ∈ sources ∧ sourceInterval source.1 = .ok source.2 from
    hgeneral sources [] (fun _ => id) (by simp) h
  intro rest
  induction rest with
  | nil =>
    intro admitted _ hadmitted hfold
    obtain rfl := Except.ok.inj hfold
    exact hadmitted
  | cons source rest ih =>
    intro admitted hrest hadmitted hfold
    rw [foldlM_cons, bind_eq_ok] at hfold
    obtain ⟨middle, hadmit, hfold⟩ := hfold
    refine ih middle (fun other hother => hrest other (mem_cons_of_mem _ hother)) ?_ hfold
    simp only [admitSource, bind_eq_ok] at hadmit
    obtain ⟨area, harea, hadmit⟩ := hadmit
    split at hadmit
    · obtain rfl := Except.ok.inj hadmit
      exact hadmitted
    · simp only [bind_eq_ok] at hadmit
      obtain ⟨_, -, hadmit⟩ := hadmit
      obtain rfl := Except.ok.inj hadmit
      intro other hother
      rcases mem_append.mp hother with hother | hother
      · exact hadmitted other hother
      · obtain rfl := mem_singleton.mp hother
        exact ⟨hrest source (mem_cons_self ..), harea⟩

/-- What a read collects from its sources, if all of it can be read back. -/
theorem Whole.collected (h : Whole externals state) (read : ReadStamp)
    (hstep : ∀ source ∈ step, source.1.isAdjacency = false ∧ sourceInterval source.1 = .ok source.2)
    (hsurvives : ∀ change ∈ state.log, change.cursor ≤ read.commitCursor →
      isRead state.log read.scope step change = true → change.Survives externals.digests) :
    ∃ selected, step.foldlM (Store.readSource externals.digests state read) .empty =
        .ok selected ∧
      selected.values = (visibleChanges state.log read.scope read.commitCursor).filter
        (isRead state.log read.scope step) := by
  obtain ⟨selected, hfold, hcollects⟩ := h.foldlM_readSource read hstep Collects.empty hsurvives
  refine ⟨selected, hfold, ?_⟩
  rw [visibleChanges, filter_filter]
  refine Collects.values_eq h.chain (hcollects.congr fun change hmem => ?_)
  simp only [false_or, Bool.and_eq_true, decide_eq_true_eq]
  constructor
  · rintro ⟨hle, hisRead⟩
    exact ⟨hisRead, hle, (scope_of_isRead hisRead).symm⟩
  · rintro ⟨hisRead, hle, -⟩
    exact ⟨hle, hisRead⟩

theorem Whole.readVersioned (h : Whole externals state) (hlog : log <+: state.log)
    (hread : StampOf externals.digests log (state.catalogRevision read.scope) read)
    (hexact : Exact externals.digests log)
    {sources : List RuntimeVersionedSource} (hne : sources ≠ [])
    (hsources : ∀ source ∈ sources, source.isAdjacency = false)
    (hstep : admitSources sources = .ok step) {maxKeys : Nat} (hmax : maxKeys ≠ 0)
    (hkeys : externals.keysExamined state read sources ≤ maxKeys) :
    readVersioned externals state read sources maxKeys =
      .ok ((visibleChanges state.log read.scope read.commitCursor).filter
        (isRead state.log read.scope step)) := by
  have hadmitted := admitSources_eq_ok hstep
  have hwithin : ∀ change ∈ state.log, change.cursor ≤ read.commitCursor → change ∈ log := by
    intro change hmem hcursor
    have htake := h.chain.take_eq_filter read.commitCursor
    rw [hread.cursor, ← prefix_iff_eq_take.mp hlog, Nat.zero_add] at htake
    rw [htake, mem_filter, decide_eq_true_eq, ← hread.cursor]
    exact ⟨hmem, hcursor⟩
  obtain ⟨selected, hfold, hvalues⟩ := h.collected read
    (fun source hmem => ⟨hsources _ (hadmitted source hmem).1, (hadmitted source hmem).2⟩)
    fun change hmem hcursor _ => hexact change (hwithin change hmem hcursor)
  have hvalid := (h.validateReadStamp hlog hread).mpr
    (.inr fun head hhead => hexact head (mem_of_getLast? hhead))
  simp only [Store.readVersioned, bind_eq_ok, ensure_eq_ok, hread.root, forM_eq_ok]
  refine ⟨(), hmax, (), hne, step, hstep, (), hvalid, (), hkeys, selected,
    hfold, (), h.checkRetained hlog hread.cursor, (), ?_, congrArg Except.ok hvalues⟩
  intro change hmem
  rw [hvalues] at hmem
  exact h.verifyChange (mem_of_mem_filter (mem_of_mem_filter hmem))

/-- What is returned is as complete as the entries, and was read back as it was. -/
theorem Whole.of_readVersioned (h : Whole externals state) {sources : List RuntimeVersionedSource}
    (hsources : ∀ source ∈ sources, source.isAdjacency = false)
    (hstep : admitSources sources = .ok step) {maxKeys : Nat} {changes : List RuntimeChange}
    (hok : Store.readVersioned externals state read sources maxKeys = .ok changes) :
    changes = (visibleChanges state.log read.scope read.commitCursor).filter
      (isRead state.log read.scope step) ∧ Exact externals.digests changes := by
  have hadmitted := admitSources_eq_ok hstep
  simp only [Store.readVersioned, bind_eq_ok, ensure_eq_ok, hstep] at hok
  obtain ⟨_, -, _, -, _, hsame, hok⟩ := hok
  obtain rfl := Except.ok.inj hsame
  cases hroot : read.accumulatorRoot with
  | none => simp [hroot] at hok
  | some root =>
    simp only [hroot, bind_eq_ok, ensure_eq_ok] at hok
    obtain ⟨_, -, _, -, selected, hfold, _, -, _, -, hok⟩ := hok
    obtain rfl := Except.ok.inj hok
    -- every entry up to the stamp passed the check of its digest
    have hsurvives : ∀ change ∈ state.log, change.cursor ≤ read.commitCursor →
        isRead state.log read.scope step change = true → change.Survives externals.digests := by
      intro change hmem hcursor hisRead
      simp only [isRead, Option.any_eq_true, any_eq_true] at hisRead
      obtain ⟨place, hentry, source, hsource, hholds⟩ := hisRead
      have hedge := isEdge_of_holds (hsources _ (hadmitted source hsource).1)
        (hadmitted source hsource).2 hholds
      have hscanned : (place, change) ∈ scanArea state read.scope source.2 := by
        rw [mem_scanArea, h.logged]
        exact ⟨(versionAt_replay h.chain hedge).mpr ⟨hmem, hentry⟩, hholds⟩
      obtain ⟨_, _, hread⟩ := exists_of_foldlM_eq_ok hfold hsource
      obtain ⟨_, _, hread⟩ := exists_of_foldlM_eq_ok hread hscanned
      have hcursor' : ¬ read.commitCursor < (change.reread externals.digests.rounded).cursor :=
        not_lt.mpr hcursor
      simp only [readEntry, if_neg hcursor', validateVersionEntry, bind_eq_ok, ensure_eq_ok] at hread
      obtain ⟨_, ⟨_, -, _, hdigest, -⟩, -⟩ := hread
      exact (RuntimeChange.survives_iff (h.chain.verifyDigest hmem)).mpr hdigest
    obtain ⟨selected', hfold', hvalues⟩ := h.collected read (fun source hmem =>
      ⟨hsources _ (hadmitted source hmem).1, (hadmitted source hmem).2⟩) hsurvives
    obtain rfl := Except.ok.inj (hfold.symm.trans hfold')
    refine ⟨hvalues, fun change hmem => ?_⟩
    rw [hvalues, visibleChanges, filter_filter, mem_filter, Bool.and_eq_true, Bool.and_eq_true,
      decide_eq_true_eq] at hmem
    exact hsurvives change hmem.1 hmem.2.2.1 hmem.2.1

def allSteps : List (RuntimeVersionedSource × Area) :=
  [(.schema, .schema), (.claims none, .claims none)] ++
    [VersionSpace.record, .relation, .event, .vector, .series, .geo, .object].map fun space =>
      (.family space none, .versions space none .first .last)

theorem admitSources_all : admitSources RuntimeVersionedSource.all = .ok allSteps := rfl

theorem mem_allSteps (space : VersionSpace) :
    (RuntimeVersionedSource.family space none, Area.versions space none .first .last) ∈ allSteps :=
  mem_append_right _ (mem_map.mpr ⟨space, by cases space <;> simp, rfl⟩)

theorem isRead_allSteps :
    isRead log change.scope allSteps change = (entered log change).isSome := by
  unfold isRead
  cases hentry : entered log change with
  | none => rfl
  | some place =>
    rw [Option.any_some, Option.isSome_some, any_eq_true]
    cases place with
    | schema key =>
      obtain ⟨-, rfl⟩ := entryOf_eq_schema hentry
      exact ⟨(.schema, .schema), by simp [allSteps], decide_eq_true rfl⟩
    | claim key =>
      obtain ⟨claim, -, rfl⟩ := entryOf_eq_claim hentry
      refine ⟨(.claims none, .claims none), by simp [allSteps], ?_⟩
      simp [Area.holds, claimVersionKey, compatible]
    | version space key =>
      obtain ⟨reference, effectiveAt, -, rfl⟩ := entryOf_eq_version hentry
      refine ⟨_, mem_allSteps space, ?_⟩
      simp [Area.holds, versionKey, inInterval, compatible, Cut.lt]
    | edge direction key => cases (cursor_of_entryOf hentry).2

theorem filter_isRead_allSteps (k : Nat) :
    (visibleChanges log scope k).filter (isRead log scope allSteps) =
      (visibleChanges log scope k).filter fun change => (entered log change).isSome := by
  refine filter_congr fun change hmem => ?_
  simp only [visibleChanges, mem_filter, Bool.and_eq_true, decide_eq_true_eq] at hmem
  rw [← hmem.2.2]
  exact isRead_allSteps

/-- A read of all families returns the visible changes that were entered. -/
theorem Whole.readVersioned_all (h : Whole externals state) (hlog : log <+: state.log)
    (hread : StampOf externals.digests log (state.catalogRevision read.scope) read)
    (hexact : Exact externals.digests log) {maxKeys : Nat} (hmax : maxKeys ≠ 0)
    (hkeys : externals.keysExamined state read RuntimeVersionedSource.all ≤ maxKeys) :
    Store.readVersioned externals state read RuntimeVersionedSource.all maxKeys =
      .ok ((visibleChanges state.log read.scope read.commitCursor).filter
        fun change => (entered state.log change).isSome) := by
  rw [h.readVersioned hlog hread hexact (by simp [RuntimeVersionedSource.all]) (by decide)
    admitSources_all hmax hkeys, filter_isRead_allSteps]

end Rrflow.Store

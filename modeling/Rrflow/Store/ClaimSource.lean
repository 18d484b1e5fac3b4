import Rrflow.Store.ClaimLog
import Rrflow.Store.Keyspaces

/-!
The claim repository on ordered bytes, and the reference it is grounded on.

The repository sees one ordered map from keys to values and answers from ranges of it. The
reference keeps the claims in a map that is ordered by their fields and filters it. The
bytes of claim keys are ordered as their fields are, so both list the same claims in the
same order, as long as the text of a claim gives it back; only a batch that names a subject
twice is answered differently.
-/

namespace Rrflow.Store

open Kernel Checks Overwrite List SortedMap Keyspaces

variable {log claims : List Claim} {n m : Nat} {claim : Claim} {key : ClaimKey}

/-! ### The reference -/

/-- The claims in the order of subject, predicate, start and transaction time, the last
two descending. -/
structure MemoryClaims where
  rows : SortedMap ClaimKey Claim

variable (memory : MemoryClaims)

namespace MemoryClaims

def new : MemoryClaims := ⟨.empty⟩

def insert (claim : Claim) : Except Kernel.Error MemoryClaims := do
  claim.validate
  return ⟨memory.rows.insert (claimKey claim) claim⟩

def versions (subject : Subject) (predicate : Predicate) (asOf : Option Nat) : List Claim :=
  memory.rows.values.filter fun claim =>
    claim.subject = subject ∧ claim.predicate = predicate ∧ asOf.all (claim.validFrom ≤ ·)

def versionsAtOrBefore (subject : Subject) (predicate : Predicate) (asOf : Nat) :
    List Claim := memory.versions subject predicate (some asOf)

def allVersions (subject : Subject) (predicate : Predicate) : List Claim :=
  memory.versions subject predicate none

def subjectVersions (subject : Subject) : List Claim :=
  memory.rows.values.filter fun claim => claim.subject = subject

/-- The default of the port: one lookup after the other. -/
def subjectVersionsBatch (subjects : List Subject) : List (List Claim) :=
  subjects.map memory.subjectVersions

def asOf (subject : Subject) (predicate : Predicate) (at_ : Nat) : Option Claim :=
  resolveAsOf (memory.versionsAtOrBefore subject predicate at_) at_

end MemoryClaims

/-! ### The repository -/

inductive Cell
  | claim (claim : Claim)
  | key (key : List Byte)
  | sequence (sequence : Nat)

/-- What a transaction sees of the storage. -/
abbrev Rows := SortedMap (List Byte) Cell

/-- The text of a claim as it is read back. -/
def Cell.toClaim : Cell → Except Error Claim
  | .claim claim => .ok claim.stored
  | .key _ | .sequence _ => .error (.codec "value is not a claim")

variable (rows : Rows)

namespace Rows

/-- The rows from `start` on and before `stop`. -/
def scan (start stop : List Byte) : List (List Byte × Cell) :=
  rows.toList.filter fun row => start ≤ row.1 ∧ row.1 < stop

/-- A sequence that was never written is at zero. -/
def decodeSequence : Option Cell → Except Error Nat
  | none => .ok 0
  | some (.sequence sequence) => .ok sequence
  | some _ => .error (.corruptWatermark "value is not a number")

def readSequence (key : List Byte) : Except Error Nat := do
  let key ← Keyspaces.checkedKey .system key
  decodeSequence (rows.find? key)

def putSequence (key : List Byte) (sequence : Nat) : Except Error Rows := do
  let key ← Keyspaces.checkedKey .system key
  return rows.insert key (.sequence sequence)

end Rows

variable (subject : Subject)

variable (predicate : Predicate)

namespace ClaimRepository

/-- The row of a claim and its entry in the sequence index. -/
def putClaim (state : Nat × Rows) (claim : Claim) : Except Error (Nat × Rows) := do
  let sequence ← next state.1
  let key := Keyspaces.claimKey claim.subject claim.predicate claim.validFrom claim.txTime
  let claimAt ← Keyspaces.checkedKey .claims key
  let indexAt ← Keyspaces.checkedKey .sequenceIndex (Keyspaces.sequenceKey sequence)
  return (sequence, (state.2.insert claimAt (.claim claim)).insert indexAt (.key key))

def appendBatch (claims : List Claim) : Except Error (AppendOutcome × Rows) := do
  claims.forM fun claim => lift claim.validate
  let start ← rows.readSequence sequenceWatermarkKey
  if claims = [] then
    return ({ firstSequence := start, lastSequence := start, count := 0 }, rows)
  let (sequence, rows) ← claims.foldlM putClaim (start, rows)
  let rows ← rows.putSequence sequenceWatermarkKey sequence
  return ({ firstSequence := start + 1, lastSequence := sequence, count := claims.length }, rows)

def noUpperBound : Error := .substrate "claim prefix has no upper bound"

def scanClaims (stem start : List Byte) : Except Error (List Claim) := do
  let start ← Keyspaces.checkedKey .claims start
  let stem ← Keyspaces.checkedKey .claims stem
  match KeyCodec.prefixEnd stem with
  | none => .error noUpperBound
  | some stop => (rows.scan start stop).mapM fun row => row.2.toClaim

def versionsAtOrBefore (asOf : Nat) : Except Error (List Claim) :=
  scanClaims rows (claimVersionStem subject predicate) (claimSeekKey subject predicate asOf)

def allVersions : Except Error (List Claim) :=
  scanClaims rows (claimVersionStem subject predicate) (claimVersionStem subject predicate)

def subjectVersions : Except Error (List Claim) :=
  scanClaims rows (claimSubjectStem subject) (claimSubjectStem subject)

/-- The claims of one subject of a batch, put to the group of their own subject. -/
def groupSubject (grouped : SortedMap Subject (List Claim)) (subject : Subject) :
    Except Error (SortedMap Subject (List Claim)) := do
  let start ← Keyspaces.checkedKey .claims (claimSubjectStem subject)
  match KeyCodec.prefixEnd start with
  | none => .error noUpperBound
  | some stop =>
    (rows.scan start stop).foldlM (fun grouped row => do
      let claim ← row.2.toClaim
      return grouped.push claim.subject claim) grouped

def subjectVersionsBatch (subjects : List Subject) : Except Error (List (List Claim)) := do
  if subjects = [] then return []
  let grouped ← subjects.foldlM (groupSubject rows) empty
  return subjects.map fun subject => (grouped.find? subject).getD []

def asOf (at_ : Nat) : Except Error (Option Claim) := do
  let candidates ← versionsAtOrBefore rows subject predicate at_
  return resolveAsOf candidates at_

end ClaimRepository

/-! ### Keys in the order of their fields -/

/-- A claim that its row can hold: the times are numbers of 64 bits and the confidence is
finite. -/
def Claim.Kept (claim : Claim) : Prop :=
  (claim.validFrom < 2 ^ 64 ∧ claim.txTime < 2 ^ 64) ∧ claim.confidence.all F32.isFinite

instance : DecidablePred Claim.Kept := fun _ => inferInstanceAs (Decidable ((_ ∧ _) ∧ _))

def keyParts (key : ClaimKey) : List KeyPart :=
  [.text (ofLex key).1.val, .text (ofLex (ofLex key).2).1.val,
    .descU64 (u64 (OrderDual.ofDual (ofLex (ofLex (ofLex key).2).2).1)),
    .descU64 (u64 (OrderDual.ofDual (ofLex (ofLex (ofLex key).2).2).2))]

def keyBytes (key : ClaimKey) : List Byte := encode .claims (keyParts key)

/-- Keys whose times are numbers of 64 bits. -/
def timedKeys : Set ClaimKey :=
  { key | OrderDual.ofDual (ofLex (ofLex (ofLex key).2).2).1 < 2 ^ 64 ∧
    OrderDual.ofDual (ofLex (ofLex (ofLex key).2).2).2 < 2 ^ 64 }

theorem u64_lt_iff (hm : m < 2 ^ 64) (hn : n < 2 ^ 64) : u64 m < u64 n ↔ m < n := by
  rw [UInt64.lt_iff_toNat_lt, u64, u64, UInt64.toNat_ofNat',
    UInt64.toNat_ofNat', Nat.mod_eq_of_lt hm, Nat.mod_eq_of_lt hn]

theorem u64_inj (hm : m < 2 ^ 64) (hn : n < 2 ^ 64) : u64 m = u64 n ↔ m = n := by
  rw [← UInt64.toNat_inj, u64, u64, UInt64.toNat_ofNat',
    UInt64.toNat_ofNat', Nat.mod_eq_of_lt hm, Nat.mod_eq_of_lt hn]

theorem text_lt_iff {kind : String} {a b : Canonical kind} :
    KeyPart.Lt (.text a.val) (.text b.val) ↔ a < b :=
  Octets.utf8_lt_iff

theorem descU64_lt_iff (hm : m < 2 ^ 64) (hn : n < 2 ^ 64) :
    KeyPart.Lt (.descU64 (u64 m)) (.descU64 (u64 n)) ↔ n < m :=
  u64_lt_iff hn hm

theorem strictMonoOn_keyBytes : StrictMonoOn keyBytes timedKeys := by
  intro a ha b hb hlt
  obtain ⟨hastart, harecord⟩ := ha
  obtain ⟨hbstart, hbrecord⟩ := hb
  rw [Prod.Lex.lt_iff, Prod.Lex.lt_iff, Prod.Lex.lt_iff] at hlt
  have horder := encode_lt_encode .claims (p := keyParts a) (q := keyParts b) rfl [] []
  rw [append_nil, append_nil] at horder
  refine horder.mpr (.inl ?_)
  simp only [keyParts, cons_lex_cons_iff, text_lt_iff, KeyPart.text.injEq,
    descU64_lt_iff hastart hbstart, descU64_lt_iff harecord hbrecord, KeyPart.descU64.injEq,
    u64_inj hastart hbstart, Subtype.val_inj]
  exact hlt.imp_right (And.imp_right (Or.imp_right (And.imp_right
    (Or.imp_right (And.imp_right Or.inl)))))

theorem Claim.Kept.mem (h : Claim.Kept claim) : claimKey claim ∈ timedKeys := h.1

theorem subject_isPrefix_keyParts {subject : Subject} :
    [KeyPart.text subject.val] <+: keyParts key ↔ (ofLex key).1 = subject := by
  simp [keyParts, Subtype.val_inj, eq_comm]

theorem pair_isPrefix_keyParts {subject : Subject} {predicate : Predicate} :
    [KeyPart.text subject.val, KeyPart.text predicate.val] <+: keyParts key ↔
      (ofLex key).1 = subject ∧ (ofLex (ofLex key).2).1 = predicate := by
  simp [keyParts, Subtype.val_inj, eq_comm]

/-! ### The rows of a log -/

/-- The rows that a list of claims leads to: every key is one of the codec, and the space
of the claims holds the last claim of each key. -/
structure Rows.Holds (rows : Rows) (log : List Claim) : Prop where
  kept : ∀ claim ∈ log, Claim.Kept claim
  encoded : ∀ bytes cell, rows.find? bytes = some cell → ∃ space parts, bytes = encode space parts
  claims : ∀ parts cell, rows.find? (encode .claims parts) = some cell ↔
    ∃ claim, last claimKey log (claimKey claim) = some claim ∧
      parts = keyParts (claimKey claim) ∧ cell = .claim claim

variable (parts : List KeyPart)

theorem Rows.readSequence_empty : Rows.readSequence empty (encode .system parts) = .ok 0 := by
  rw [Rows.readSequence, checkedKey_encode]
  rfl

theorem Rows.holds_empty : Rows.Holds empty [] :=
  ⟨nofun, nofun, fun _ _ => ⟨nofun, fun ⟨_, h, _⟩ => nomatch h⟩⟩

theorem Rows.Holds.insert {rows : Rows} (h : rows.Holds log) {space : Space}
    (hspace : space ≠ .claims) (parts : List KeyPart) (cell : Cell) :
    Rows.Holds (SortedMap.insert rows (encode space parts) cell) log := by
  refine ⟨h.kept, fun bytes found hfound => ?_, fun other found => ?_⟩
  · rcases SortedMap.eq_or_find?_of_insert hfound with ⟨rfl, -⟩ | hold
    · exact ⟨space, parts, rfl⟩
    · exact h.encoded bytes found hold
  · have hne : encode .claims other ≠ encode space parts := fun heq =>
      hspace (encode_inj.mp heq).1.symm
    rw [find?_insert_of_ne _ _ hne]
    exact h.claims other found

theorem keyParts_inj {a b : ClaimKey} (ha : a ∈ timedKeys) (hb : b ∈ timedKeys) :
    keyParts a = keyParts b ↔ a = b := by
  refine ⟨fun heq => strictMonoOn_keyBytes.injOn ha hb ?_, fun heq => heq ▸ rfl⟩
  rw [keyBytes, keyBytes, heq]

theorem Rows.Holds.insertClaim {rows : Rows} (h : rows.Holds log) (hkept : Claim.Kept claim) :
    Rows.Holds (SortedMap.insert rows (keyBytes (claimKey claim)) (.claim claim))
      (log ++ [claim]) := by
  have hall : ∀ other ∈ log ++ [claim], Claim.Kept other := by
    intro other hother
    rcases mem_append.mp hother with hother | hother
    · exact h.kept other hother
    · rwa [mem_singleton.mp hother]
  refine ⟨hall, fun bytes found hfound => ?_, fun parts found => ?_⟩
  · rcases SortedMap.eq_or_find?_of_insert hfound with ⟨rfl, -⟩ | hold
    · exact ⟨.claims, keyParts (claimKey claim), rfl⟩
    · exact h.encoded bytes found hold
  · rw [keyBytes, SortedMap.find?_insert]
    simp only [encode_inj, true_and, last_concat]
    by_cases hparts : parts = keyParts (claimKey claim)
    · rw [if_pos hparts, Option.some.injEq]
      constructor
      · rintro rfl
        exact ⟨claim, if_pos rfl, hparts, rfl⟩
      · rintro ⟨other, hlast, hother, rfl⟩
        have hmem : other ∈ log ++ [claim] := by
          rw [← last_concat] at hlast
          exact (mem_of_last hlast).1
        have hkey : claimKey claim = claimKey other :=
          (keyParts_inj hkept.mem (hall other hmem).mem).mp (hparts.symm.trans hother)
        rw [if_pos hkey, Option.some.injEq] at hlast
        rw [hlast]
    · rw [if_neg hparts, h.claims]
      refine exists_congr fun other => and_congr_left fun hother => ?_
      have hkey : claimKey claim ≠ claimKey other := fun hkey => hparts (hkey ▸ hother.1)
      rw [if_neg hkey]

theorem Rows.putSequence_eq (sequence : Nat) : rows.putSequence (encode .system parts) sequence =
      .ok (SortedMap.insert rows (encode .system parts) (.sequence sequence)) := by
  rw [Rows.putSequence, checkedKey_encode]
  rfl

theorem Rows.readSequence_insert (sequence : Nat) :
    Rows.readSequence (SortedMap.insert rows (encode .system parts) (.sequence sequence))
      (encode .system parts) = .ok sequence := by
  rw [Rows.readSequence, checkedKey_encode, ok_bind, find?_insert_self]
  rfl

namespace ClaimRepository

theorem putClaim_eq_ok {state after : Nat × Rows} (h : putClaim state claim = .ok after)
    (hholds : state.2.Holds log) (hkept : Claim.Kept claim) :
    after.1 = state.1 + 1 ∧ after.2.Holds (log ++ [claim]) := by
  simp only [putClaim, bind_eq_ok, next_eq_ok] at h
  obtain ⟨sequence, ⟨-, rfl⟩, claimAt, hclaim, indexAt, hindex, h⟩ := h
  obtain rfl := Except.ok.inj ((checkedKey_encode ..).symm.trans hclaim)
  obtain rfl := Except.ok.inj ((checkedKey_encode ..).symm.trans hindex)
  obtain rfl := Except.ok.inj h
  exact ⟨rfl, (hholds.insertClaim hkept).insert (by decide) _ _⟩

theorem foldlM_putClaim {state after : Nat × Rows} (h : claims.foldlM putClaim state = .ok after)
    (hholds : state.2.Holds log) (hkept : ∀ claim ∈ claims, Claim.Kept claim) :
    after.1 = state.1 + claims.length ∧ after.2.Holds (log ++ claims) := by
  induction claims generalizing state log with
  | nil =>
    obtain rfl := Except.ok.inj h
    exact ⟨rfl, by rwa [append_nil]⟩
  | cons claim rest ih =>
    rw [foldlM_cons, bind_eq_ok] at h
    obtain ⟨middle, hclaim, hrest⟩ := h
    obtain ⟨hnumber, hmiddle⟩ := putClaim_eq_ok hclaim hholds (hkept claim (mem_cons_self ..))
    obtain ⟨hlength, hafter⟩ := ih hrest hmiddle fun other hother =>
      hkept other (mem_cons_of_mem _ hother)
    refine ⟨?_, by rwa [append_cons]⟩
    rw [hlength, hnumber, length_cons]
    omega

theorem appendBatch_eq_ok {rows rows' : Rows} {outcome : AppendOutcome}
    (h : appendBatch rows claims = .ok (outcome, rows')) (hholds : rows.Holds log)
    (hwatermark : rows.readSequence sequenceWatermarkKey = .ok log.length)
    (hkept : ∀ claim ∈ claims, Claim.Kept claim) :
    rows'.Holds (log ++ claims) ∧
      rows'.readSequence sequenceWatermarkKey = .ok (log ++ claims).length := by
  simp only [appendBatch, bind_eq_ok, forM_eq_ok] at h
  obtain ⟨_, -, start, hstart, h⟩ := h
  rw [hwatermark] at hstart
  obtain rfl := Except.ok.inj hstart
  split at h
  · next hnil =>
      obtain ⟨-, rfl⟩ := Prod.mk.inj (Except.ok.inj h)
      rw [hnil, append_nil]
      exact ⟨hholds, hwatermark⟩
  · simp only [bind_eq_ok] at h
    obtain ⟨⟨sequence, middle⟩, hfold, rows'', hput, h⟩ := h
    obtain ⟨-, rfl⟩ := Prod.mk.inj (Except.ok.inj h)
    obtain ⟨hnumber, hmiddle⟩ := foldlM_putClaim hfold hholds hkept
    obtain rfl := Except.ok.inj ((Rows.putSequence_eq ..).symm.trans hput)
    refine ⟨hmiddle.insert (by decide) _ _, ?_⟩
    rw [length_append, ← hnumber]
    exact Rows.readSequence_insert ..

/-! ### Ranges -/

theorem scan_eq {rows : Rows} (hholds : rows.Holds log) (start stop : List Byte)
    (inRange : ClaimKey → Bool)
    (hstem : ∀ bytes, start ≤ bytes → bytes < stop → encode .claims [] <+: bytes)
    (hrange : ∀ key ∈ timedKeys, (start ≤ keyBytes key ∧ keyBytes key < stop) ↔ inRange key = true)
    :
    (rows.scan start stop).map Prod.snd =
      ((table claimKey log).values.filter fun claim => inRange (claimKey claim)).map Cell.claim := by
  have htable : ∀ {key claim}, (table claimKey log).find? key = some claim →
      claimKey claim = key ∧ key ∈ timedKeys := by
    intro key claim hfind
    rw [find?_table] at hfind
    obtain ⟨hmem, hkey⟩ := mem_of_last hfind
    exact ⟨hkey, hkey ▸ (hholds.kept claim hmem).mem⟩
  have hlists := map_toList_eq (e := keyBytes) (f := Cell.claim) (g := id)
    (m := (table claimKey log).filter fun key _ => inRange key)
    (n := filter rows fun bytes _ => start ≤ bytes ∧ bytes < stop)
    (fun key claim hfind => (htable (find?_filter_eq_some.mp hfind).1).2)
    strictMonoOn_keyBytes ?_
  · have hvalues := congrArg (List.map Prod.snd) hlists
    rw [map_map, map_map] at hvalues
    have hfilter : (table claimKey log).values.filter (fun claim => inRange (claimKey claim)) =
        ((table claimKey log).filter fun key _ => inRange key).toList.map Prod.snd := by
      rw [values, filter_map]
      congr 1
      refine filter_congr fun entry hentry => ?_
      rw [Function.comp_apply, (htable (mem_toList_iff.mp hentry)).1]
    rw [hfilter, map_map]
    exact hvalues.symm
  · intro bytes cell
    constructor
    · rintro ⟨key, claim, hfind, rfl, rfl⟩
      obtain ⟨hfind, hin⟩ := find?_filter_eq_some.mp hfind
      obtain ⟨hkey, hkept⟩ := htable hfind
      refine ⟨.claim claim, find?_filter_eq_some.mpr ⟨?_, ?_⟩, rfl⟩
      · rw [find?_table] at hfind
        exact (hholds.claims _ _).mpr ⟨claim, hkey ▸ hfind, hkey ▸ rfl, rfl⟩
      · exact decide_eq_true ((hrange key hkept).mpr hin)
    · rintro ⟨cell, hfind, rfl⟩
      obtain ⟨hfind, hin⟩ := find?_filter_eq_some.mp hfind
      have hin := of_decide_eq_true hin
      -- the row is one of the space of the claims
      obtain ⟨space, parts, rfl⟩ := hholds.encoded bytes cell hfind
      obtain ⟨rfl, -⟩ := encode_isPrefix_encode.mp (hstem _ hin.1 hin.2)
      obtain ⟨claim, hlast, rfl, rfl⟩ := (hholds.claims parts cell).mp hfind
      have hkept := (hholds.kept claim (mem_of_last hlast).1).mem
      refine ⟨claimKey claim, claim, find?_filter_eq_some.mpr ⟨?_, ?_⟩, rfl, rfl⟩
      · rw [find?_table]
        exact hlast
      · exact (hrange _ hkept).mp hin

theorem mapM_toClaim {rows : List (List Byte × Cell)}
    (h : rows.map Prod.snd = claims.map Cell.claim) (hkept : ∀ claim ∈ claims, Claim.Kept claim) :
    (rows.mapM fun row => row.2.toClaim) = .ok claims := by
  induction rows generalizing claims with
  | nil =>
    rw [map_nil, eq_comm, map_eq_nil_iff] at h
    rw [h]
    rfl
  | cons row rest ih =>
    cases claims with
    | nil => cases h
    | cons claim claims =>
      obtain ⟨hrow, hrest⟩ := List.cons.inj h
      obtain ⟨hclaim, hclaims⟩ := forall_mem_cons.mp hkept
      rw [mapM_cons, hrow, ih hrest hclaims, Cell.toClaim, Claim.stored_eq_self.mpr hclaim.2]
      rfl

section Ranges

variable {rows : Rows} (hholds : rows.Holds log) (leading more : List KeyPart)
  (inRange : ClaimKey → Bool)
  (hrange : ∀ key ∈ timedKeys, (encode .claims (leading ++ more) ≤ keyBytes key ∧
    leading <+: keyParts key) ↔ inRange key = true)

include hholds hrange

/-- The rows from some fields on, as far as they begin with the first of these. -/
theorem exists_scan_eq : ∃ stop, KeyCodec.prefixEnd (encode .claims leading) = some stop ∧
    (rows.scan (encode .claims (leading ++ more)) stop).map Prod.snd =
      ((table claimKey log).values.filter fun claim => inRange (claimKey claim)).map
        Cell.claim := by
  obtain ⟨stop, hstop, hinterval⟩ := exists_interval .claims leading
  have hstart : encode .claims leading ≤ encode .claims (leading ++ more) :=
    encode_le_encode .claims (prefix_append ..)
  refine ⟨stop, hstop, scan_eq hholds _ stop inRange ?_ ?_⟩
  · intro bytes hge hlt
    have hprefix := (hinterval bytes).mp ⟨hstart.trans hge, hlt⟩
    exact (encode_isPrefix_encode.mpr ⟨rfl, nil_prefix⟩).trans hprefix
  · intro key hkey
    rw [← hrange key hkey]
    refine and_congr_right fun hge => ?_
    have hiff := hinterval (keyBytes key)
    rw [and_iff_right (hstart.trans hge)] at hiff
    rw [hiff, keyBytes, encode_isPrefix_encode, and_iff_right rfl]

omit hrange in
theorem kept_of_mem_filter {claim : Claim} {p : Claim → Bool}
    (h : claim ∈ (table claimKey log).values.filter p) : Claim.Kept claim := by
  obtain ⟨entry, hentry, rfl⟩ := mem_map.mp (mem_of_mem_filter h)
  rw [mem_toList_iff, find?_table] at hentry
  exact hholds.kept _ (mem_of_last hentry).1

theorem scanClaims_eq :
    scanClaims rows (encode .claims leading) (encode .claims (leading ++ more)) =
      .ok ((table claimKey log).values.filter fun claim => inRange (claimKey claim)) := by
  obtain ⟨stop, hstop, hscan⟩ := exists_scan_eq hholds leading more inRange hrange
  simp only [scanClaims, checkedKey_encode, ok_bind, hstop]
  exact mapM_toClaim hscan fun claim => kept_of_mem_filter hholds

end Ranges

/-- Of the keys that begin with given fields, none lies before these. -/
theorem isPrefix_range {leading : List KeyPart} :
    (encode .claims (leading ++ []) ≤ keyBytes key ∧ leading <+: keyParts key) ↔
      leading <+: keyParts key := by
  rw [append_nil]
  exact ⟨fun h => h.2, fun h => ⟨encode_le_encode .claims h, h⟩⟩

theorem versionsAtOrBefore_eq {rows : Rows} (hholds : rows.Holds log) (subject : Subject)
    (predicate : Predicate) {asOf : Nat} (hasOf : asOf < 2 ^ 64) :
    versionsAtOrBefore rows subject predicate asOf =
      .ok (MemoryClaims.versionsAtOrBefore ⟨table claimKey log⟩ subject predicate asOf) := by
  refine scanClaims_eq hholds [.text subject.val, .text predicate.val]
    [.descU64 (u64 asOf)] (fun key => (ofLex key).1 = subject ∧
      (ofLex (ofLex key).2).1 = predicate ∧
      (some asOf).all (OrderDual.ofDual (ofLex (ofLex (ofLex key).2).2).1 ≤ ·)) ?_
  intro key hkey
  rw [pair_isPrefix_keyParts, decide_eq_true_eq, and_comm, and_assoc]
  refine and_congr_right fun hsubject => and_congr_right fun hpredicate => ?_
  -- the key and the sought one differ in the start only
  have horder := encode_lt_encode .claims
    (p := [.text subject.val, .text predicate.val,
      .descU64 (u64 (OrderDual.ofDual (ofLex (ofLex (ofLex key).2).2).1))])
    (q := [.text subject.val, .text predicate.val, .descU64 (u64 asOf)]) rfl
    [.descU64 (u64 (OrderDual.ofDual (ofLex (ofLex (ofLex key).2).2).2))] []
  have hstart : keyBytes key < encode .claims ([.text subject.val, .text predicate.val] ++
      [.descU64 (u64 asOf)]) ↔
      asOf < OrderDual.ofDual (ofLex (ofLex (ofLex key).2).2).1 := by
    rw [keyBytes, keyParts, hsubject, hpredicate]
    refine Iff.trans horder ?_
    simp [cons_lex_cons_iff, KeyPart.Lt, u64_lt_iff hasOf hkey.1]
  rw [← not_lt, hstart, not_lt, Option.all_some, decide_eq_true_eq]

theorem allVersions_eq {rows : Rows} (hholds : rows.Holds log) (subject : Subject)
    (predicate : Predicate) :
    allVersions rows subject predicate =
      .ok (MemoryClaims.allVersions ⟨table claimKey log⟩ subject predicate) := by
  refine scanClaims_eq hholds [.text subject.val, .text predicate.val] []
    (fun key => (ofLex key).1 = subject ∧ (ofLex (ofLex key).2).1 = predicate ∧
      (none : Option Nat).all (OrderDual.ofDual (ofLex (ofLex (ofLex key).2).2).1 ≤ ·)) ?_
  intro key _
  rw [isPrefix_range, pair_isPrefix_keyParts]
  simp

theorem subject_range (key : ClaimKey) :
    (encode .claims ([.text subject.val] ++ []) ≤ keyBytes key ∧
      [.text subject.val] <+: keyParts key) ↔ decide ((ofLex key).1 = subject) = true := by
  rw [isPrefix_range, subject_isPrefix_keyParts, decide_eq_true_eq]

theorem subjectVersions_eq {rows : Rows} (hholds : rows.Holds log) (subject : Subject) :
    subjectVersions rows subject =
      .ok (MemoryClaims.subjectVersions ⟨table claimKey log⟩ subject) :=
  scanClaims_eq hholds [.text subject.val] [] (fun key => (ofLex key).1 = subject)
    fun key _ => subject_range subject key

theorem foldlM_push {rows : List (List Byte × Cell)} (h : rows.map Prod.snd = claims.map Cell.claim)
    (hkept : ∀ claim ∈ claims, Claim.Kept claim) (grouped : SortedMap Subject (List Claim)) :
    rows.foldlM (fun (grouped : SortedMap Subject (List Claim)) row => do
      let claim ← row.2.toClaim
      return grouped.push claim.subject claim) grouped =
      (.ok (claims.foldl (fun grouped claim => grouped.push claim.subject claim) grouped) :
        Except Error _) := by
  induction rows generalizing claims grouped with
  | nil =>
    rw [map_nil, eq_comm, map_eq_nil_iff] at h
    rw [h]
    rfl
  | cons row rest ih =>
    cases claims with
    | nil => cases h
    | cons claim claims =>
      obtain ⟨hrow, hrest⟩ := List.cons.inj h
      obtain ⟨hclaim, hclaims⟩ := forall_mem_cons.mp hkept
      rw [foldlM_cons, hrow, Cell.toClaim, Claim.stored_eq_self.mpr hclaim.2]
      exact ih hrest hclaims (grouped.push claim.subject claim)

theorem filter_subjectVersions (subject other : Subject) {p : Claim → Bool}
    (hp : ∀ claim, p claim = true ↔ claim.subject = other) :
    (memory.subjectVersions subject).filter p =
      if other = subject then memory.subjectVersions subject else [] := by
  have hof : ∀ claim ∈ memory.subjectVersions subject, claim.subject = subject :=
    fun claim hclaim => of_decide_eq_true (mem_filter.mp hclaim).2
  split
  · next hsame =>
      rw [filter_eq_self]
      exact fun claim hclaim => (hp claim).mpr ((hof claim hclaim).trans hsame.symm)
  · next hother =>
      rw [filter_eq_nil_iff]
      exact fun claim hclaim hsubject =>
        hother (((hp claim).mp hsubject).symm.trans (hof claim hclaim))

theorem groupSubject_eq {rows : Rows} (hholds : rows.Holds log)
    (grouped : SortedMap Subject (List Claim)) (subject : Subject) :
    ∃ after, groupSubject rows grouped subject = .ok after ∧
      ∀ other, (after.find? other).getD [] = (grouped.find? other).getD [] ++
        if other = subject then MemoryClaims.subjectVersions ⟨table claimKey log⟩ subject
        else [] := by
  obtain ⟨stop, hstop, hscan⟩ := exists_scan_eq hholds [.text subject.val] []
    (fun key => (ofLex key).1 = subject) fun key _ => subject_range subject key
  rw [append_nil] at hscan
  refine ⟨(MemoryClaims.subjectVersions ⟨table claimKey log⟩ subject).foldl
    (fun grouped claim => grouped.push claim.subject claim) grouped, ?_, fun other => ?_⟩
  · simp only [groupSubject, claimSubjectStem, checkedKey_encode, ok_bind, hstop]
    exact foldlM_push hscan (fun claim => kept_of_mem_filter hholds) grouped
  · rw [find?_foldl_push Claim.subject, filter_subjectVersions _ subject other]
    · generalize (if other = subject then
        MemoryClaims.subjectVersions ⟨table claimKey log⟩ subject else []) = more
      by_cases hnil : more = []
      · rw [if_pos hnil, hnil, append_nil]
      · rw [if_neg hnil]
        rfl
    · exact fun claim => decide_eq_true_iff

theorem foldlM_groupSubject {rows : Rows} (hholds : rows.Holds log) (subjects : List Subject)
    (grouped : SortedMap Subject (List Claim)) :
    ∃ after, subjects.foldlM (groupSubject rows) grouped = .ok after ∧
      ∀ other, (after.find? other).getD [] = (grouped.find? other).getD [] ++
        (List.replicate (subjects.count other)
          (MemoryClaims.subjectVersions ⟨table claimKey log⟩ other)).flatten := by
  induction subjects generalizing grouped with
  | nil => exact ⟨grouped, rfl, by simp⟩
  | cons subject rest ih =>
    obtain ⟨middle, hmiddle, hfirst⟩ := groupSubject_eq hholds grouped subject
    obtain ⟨after, hafter, hrest⟩ := ih middle
    refine ⟨after, by rw [foldlM_cons, hmiddle, ok_bind, hafter], fun other => ?_⟩
    rw [hrest, hfirst]
    by_cases hsame : other = subject
    · subst hsame
      rw [if_pos rfl, count_cons_self, replicate_succ, flatten_cons, append_assoc]
    · rw [if_neg hsame, append_nil, count_cons_of_ne (Ne.symm hsame)]

theorem subjectVersionsBatch_eq {rows : Rows} (hholds : rows.Holds log) (subjects : List Subject) :
    subjectVersionsBatch rows subjects = .ok (subjects.map fun subject =>
      (List.replicate (subjects.count subject)
        (MemoryClaims.subjectVersions ⟨table claimKey log⟩ subject)).flatten) := by
  rw [subjectVersionsBatch]
  split
  · next hnil =>
      rw [hnil]
      rfl
  · obtain ⟨after, hafter, hgroups⟩ := foldlM_groupSubject hholds subjects empty
    rw [hafter, ok_bind]
    exact congrArg Except.ok (map_congr_left fun subject _ => hgroups subject)

/-- A list is itself repeated if it is empty or repeated once. -/
theorem flatten_replicate_eq_iff (hn : 0 < n) :
    (List.replicate n claims).flatten = claims ↔ claims = [] ∨ n = 1 := by
  constructor
  · intro h
    have hlength := congrArg List.length h
    rw [length_flatten, map_replicate, sum_replicate_nat] at hlength
    rcases Nat.eq_zero_or_pos claims.length with hzero | hpos
    · exact .inl (length_eq_zero_iff.mp hzero)
    · exact .inr (Nat.eq_of_mul_eq_mul_right hpos (hlength.trans (Nat.one_mul _).symm))
  · rintro (rfl | rfl)
    · simp
    · simp

end ClaimRepository

/-- The claims one by one through the repository. -/
def ClaimRepository.appendEach (claims : List Claim) : Except Error Rows :=
  claims.foldlM (fun rows claim => do
    let (_, rows) ← appendBatch rows [claim]
    return rows) rows

def MemoryClaims.insertEach (claims : List Claim) : Except Kernel.Error MemoryClaims :=
  claims.foldlM MemoryClaims.insert memory

theorem ClaimRepository.exists_appendBatch {rows : Rows} {number : Nat}
    (hvalid : claim.validate = .ok ()) (hnumber : number < u64Max)
    (hwatermark : rows.readSequence sequenceWatermarkKey = .ok number) :
    ∃ result, appendBatch rows [claim] = .ok result := by
  have hnext : next number = .ok (number + 1) := next_eq_ok.mpr ⟨hnumber, rfl⟩
  have hput : ∃ after, putClaim (number, rows) claim = .ok after := by
    simp only [putClaim, hnext, ok_bind, Keyspaces.claimKey, Keyspaces.sequenceKey,
      checkedKey_encode]
    exact ⟨_, rfl⟩
  obtain ⟨after, hput⟩ := hput
  have hlift : lift claim.validate = .ok () := lift_eq_ok.mpr hvalid
  have hforM : [claim].forM (fun claim => lift claim.validate) = .ok () := by
    simp [hlift]
  have hfold : [claim].foldlM putClaim (number, rows) = .ok after := by
    rw [foldlM_cons, hput]
    rfl
  have hsequence : after.2.putSequence sequenceWatermarkKey after.1 = .ok _ :=
    Rows.putSequence_eq ..
  simp only [appendBatch, hforM, hwatermark, ok_bind, cons_ne_nil, if_false, hfold, hsequence]
  exact ⟨_, rfl⟩

theorem ClaimRepository.exists_appendEach {rows : Rows} (hholds : rows.Holds log)
    (hwatermark : rows.readSequence sequenceWatermarkKey = .ok log.length)
    (hvalid : ∀ claim ∈ claims, claim.validate = .ok ())
    (hkept : ∀ claim ∈ claims, Claim.Kept claim) (hnumbers : log.length + claims.length ≤ u64Max)
    :
    ∃ rows', appendEach rows claims = .ok rows' ∧ rows'.Holds (log ++ claims) := by
  induction claims generalizing rows log with
  | nil => exact ⟨rows, rfl, by rwa [append_nil]⟩
  | cons claim rest ih =>
    rw [length_cons] at hnumbers
    obtain ⟨⟨outcome, appended⟩, happend⟩ := exists_appendBatch
      (hvalid claim (mem_cons_self ..)) (by omega) hwatermark
    obtain ⟨hmiddle, hnumber⟩ := appendBatch_eq_ok happend hholds hwatermark
      (by simpa using hkept claim (mem_cons_self ..))
    obtain ⟨rows', hrest, hafter⟩ := ih hmiddle hnumber
      (fun other hother => hvalid other (mem_cons_of_mem _ hother))
      (fun other hother => hkept other (mem_cons_of_mem _ hother))
      (by rw [length_append, length_singleton]; omega)
    refine ⟨rows', ?_, by rwa [append_cons]⟩
    rw [appendEach, foldlM_cons, happend]
    exact hrest

theorem MemoryClaims.insertEach_eq (log : List Claim)
    (hvalid : ∀ claim ∈ claims, claim.validate = .ok ()) :
    insertEach ⟨table claimKey log⟩ claims = .ok ⟨table claimKey (log ++ claims)⟩ := by
  induction claims generalizing log with
  | nil =>
    rw [append_nil]
    rfl
  | cons claim rest ih =>
    have hrest := ih (log ++ [claim]) fun other hother =>
      hvalid other (mem_cons_of_mem _ hother)
    rw [table_append] at hrest
    rw [insertEach, foldlM_cons, MemoryClaims.insert, hvalid claim (mem_cons_self ..), append_cons]
    exact hrest

theorem MemoryClaims.subjectVersions_eq_nil_iff :
    MemoryClaims.subjectVersions ⟨table claimKey claims⟩ subject = [] ↔
      ∀ claim ∈ claims, claim.subject ≠ subject := by
  simp only [MemoryClaims.subjectVersions, filter_eq_nil_iff, decide_eq_true_eq]
  constructor
  · intro hnone claim hclaim hsubject
    -- the row of the claim has its subject
    have hrow := last_of_mem claimKey hclaim
    rw [← find?_table, ← mem_toList_iff] at hrow
    have hkey : claimKey (current claimKey claims claim) = claimKey claim := key_current claims claim
    have hsame := congrArg (fun key => (ofLex key).1) hkey
    exact hnone _ (mem_map_of_mem hrow) (hsame.trans hsubject)
  · intro hall claim hclaim
    obtain ⟨entry, hentry, rfl⟩ := mem_map.mp hclaim
    rw [mem_toList_iff, find?_table] at hentry
    exact hall _ (mem_of_last hentry).1

/-- The repository answers what the reference answers, except for a batch: there it does
exactly if every subject with claims is named once. -/
theorem claim_source_refines_iff {claims : List Claim}
    (hvalid : ∀ claim ∈ claims, claim.validate = .ok ())
    (hkept : ∀ claim ∈ claims, Claim.Kept claim) (hnumbers : claims.length ≤ u64Max) :
    ∃ rows memory, ClaimRepository.appendEach empty claims = .ok rows ∧
      MemoryClaims.insertEach .new claims = .ok memory ∧
      (∀ subject predicate asOf, asOf < 2 ^ 64 →
        ClaimRepository.versionsAtOrBefore rows subject predicate asOf =
          .ok (memory.versionsAtOrBefore subject predicate asOf) ∧
        ClaimRepository.asOf rows subject predicate asOf =
          .ok (memory.asOf subject predicate asOf)) ∧
      (∀ subject predicate, ClaimRepository.allVersions rows subject predicate =
        .ok (memory.allVersions subject predicate)) ∧
      (∀ subject, ClaimRepository.subjectVersions rows subject =
        .ok (memory.subjectVersions subject)) ∧
      ∀ subjects, ClaimRepository.subjectVersionsBatch rows subjects =
          .ok (memory.subjectVersionsBatch subjects) ↔
        ∀ subject ∈ subjects,
          (∀ claim ∈ claims, claim.subject ≠ subject) ∨ subjects.count subject = 1 := by
  obtain ⟨rows, happend, hholds⟩ := ClaimRepository.exists_appendEach Rows.holds_empty
    (Rows.readSequence_empty _) hvalid hkept (by rwa [length_nil, Nat.zero_add])
  refine ⟨rows, ⟨table claimKey claims⟩, happend, MemoryClaims.insertEach_eq [] hvalid,
    fun subject predicate asOf hasOf => ⟨?_, ?_⟩, ?_, ?_, fun subjects => ?_⟩
  · exact ClaimRepository.versionsAtOrBefore_eq hholds subject predicate hasOf
  · rw [ClaimRepository.asOf, ClaimRepository.versionsAtOrBefore_eq hholds subject predicate hasOf]
    rfl
  · exact ClaimRepository.allVersions_eq hholds
  · exact ClaimRepository.subjectVersions_eq hholds
  · rw [ClaimRepository.subjectVersionsBatch_eq hholds, Except.ok.injEq,
      MemoryClaims.subjectVersionsBatch, map_inj_left]
    refine forall₂_congr fun subject hsubject => ?_
    rw [← MemoryClaims.subjectVersions_eq_nil_iff]
    exact ClaimRepository.flatten_replicate_eq_iff (count_pos_iff.mpr hsubject)

/-- One claim, with the subject named once. -/
theorem claim_source_refines_iff_once : ∃ rows memory,
    ClaimRepository.appendEach empty [boilsAt "100"] = .ok rows ∧
    MemoryClaims.insertEach .new [boilsAt "100"] = .ok memory ∧
    ClaimRepository.asOf rows (boilsAt "100").subject (boilsAt "100").predicate 1 =
      .ok (memory.asOf (boilsAt "100").subject (boilsAt "100").predicate 1) ∧
    ClaimRepository.subjectVersionsBatch rows [(boilsAt "100").subject] =
      .ok (memory.subjectVersionsBatch [(boilsAt "100").subject]) := by
  have hvalid : ∀ claim ∈ [boilsAt "100"], claim.validate = .ok () := by decide
  obtain ⟨rows, memory, happend, hinsert, hread, -, -, hbatch⟩ :=
    claim_source_refines_iff hvalid (by decide) (by decide)
  refine ⟨rows, memory, happend, hinsert, (hread _ _ 1 (by decide)).2, (hbatch _).mpr ?_⟩
  intro subject hsubject
  rw [mem_singleton.mp hsubject]
  exact .inr (count_singleton_self ..)

/-- A subject named twice gets its claims twice. -/
theorem subject_versions_batch_doubles : ∃ rows memory,
    ClaimRepository.appendEach empty [boilsAt "100"] = .ok rows ∧
    MemoryClaims.insertEach .new [boilsAt "100"] = .ok memory ∧
    memory.subjectVersionsBatch [(boilsAt "100").subject, (boilsAt "100").subject] =
      [[boilsAt "100"], [boilsAt "100"]] ∧
    ClaimRepository.subjectVersionsBatch rows [(boilsAt "100").subject, (boilsAt "100").subject] =
      .ok [[boilsAt "100", boilsAt "100"], [boilsAt "100", boilsAt "100"]] := by
  have hvalid : ∀ claim ∈ [boilsAt "100"], claim.validate = .ok () := by decide
  obtain ⟨rows, happend, hholds⟩ := ClaimRepository.exists_appendEach Rows.holds_empty
    (Rows.readSequence_empty _) hvalid (by decide) (by decide)
  refine ⟨rows, ⟨table claimKey [boilsAt "100"]⟩, happend, rfl, by decide, ?_⟩
  rw [ClaimRepository.subjectVersionsBatch_eq hholds]
  exact congrArg Except.ok (by decide)

end Rrflow.Store

import Rrflow.Lib.Checks
import Rrflow.Lib.Latest
import Rrflow.Lib.SortedMap
import Rrflow.Lsm.Types

/-!
The mutable table: an ordered map from keys to their version chains.

A chain lists the versions of its key in the order they were written, so its
sequences increase, and a read at a sequence scans it from the end. `Ordered`
is that invariant together with the interval the sequences lie in; it is kept
by `applyWriteBatch` because a batch is accepted only when it starts right after
the greatest sequence applied so far.
-/

namespace Rrflow.Lsm

open Checks Latest

variable {batch : WriteBatch} {first last durable : Nat}

structure Memtable where
  versions : SortedMap Bytes (List VersionedValue)
  maximumSequence : Nat
  versionCount : Nat
  approximateBytes : Nat
  deriving DecidableEq

variable (table : Memtable) (versions : SortedMap Bytes (List VersionedValue))

variable (key : Bytes)

namespace Memtable

def atSequence (sequence : Nat) : Memtable :=
  { versions := ∅, maximumSequence := sequence, versionCount := 0, approximateBytes := 0 }

def charge : MutableCharge :=
  { bytes := table.approximateBytes, versions := table.versionCount }

def insertVersion (version : VersionedValue) : SortedMap Bytes (List VersionedValue) :=
  versions.insert key ((versions.find? key).getD [] ++ [version])

def insertEntries (entries : List Entry) : SortedMap Bytes (List VersionedValue) :=
  entries.foldl (fun versions entry => insertVersion versions entry.1 entry.2) versions

def applyWriteBatch (batch : WriteBatch) (firstSequence lastSequence : Nat) :
    Except Error Memtable := do
  let expectedLast ← match checkedAdd firstSequence (batch.len - 1) with
    | some n => .ok n
    | none => .error (.invalidBatch "batch sequence range overflow")
  if firstSequence ≠ saturatingAdd table.maximumSequence 1 ∨ lastSequence ≠ expectedLast then
    .error (.invalidBatch
      ("batch sequence range " ++ toString firstSequence ++ "..=" ++ toString lastSequence ++
        " does not match " ++ toString batch.len ++ " operation(s) after sequence " ++
        toString table.maximumSequence))
  let nextCharge ← table.charge.checkedAdd (← MutableCharge.batch batch)
  return {
    versions := insertEntries table.versions (stampOperations firstSequence batch.operations)
    maximumSequence := lastSequence
    versionCount := nextCharge.versions
    approximateBytes := nextCharge.bytes }

/-- One replayed batch at recovery, under the hard limits. -/
def applyOwnedRecovered (batch : WriteBatch) (firstSequence lastSequence : Nat)
    (limits : MutableLimits) : Except Error Memtable := do
  limits.check (← table.charge.checkedAdd (← MutableCharge.batch batch))
  table.applyWriteBatch batch firstSequence lastSequence

/-- The newest version of a chain at or before a sequence. -/
def visibleVersion (versions : List VersionedValue) (readSequence : Nat) : Option VersionedValue :=
  versions.reverse.find? (fun version => decide (version.sequence ≤ readSequence))

def getVersion (readSequence : Nat) : Option VersionedValue := do
  visibleVersion (← table.versions.find? key) readSequence

def rangeChains (start : Bytes) (stop : Option Bytes) : List (Bytes × List VersionedValue) :=
  table.versions.toList.filter (fun chain => inRange start stop chain.1)

/-- All versions, in key order and within a key in sequence order. -/
def allVersions : List (Bytes × List VersionedValue) := table.versions.toList

/-! ### Contents -/

def chain : List VersionedValue :=
  (table.versions.find? key).getD []

/-- Chains are increasing, with sequences after `durable` and up to
the greatest one applied; the count is zero only when there are none. -/
structure Ordered (table : Memtable) (durable : Nat) : Prop where
  le : durable ≤ table.maximumSequence
  counted : table.versionCount = 0 → table = .atSequence durable
  increasing : ∀ key, (table.chain key).Pairwise (fun a b => a.sequence < b.sequence)
  within : ∀ key, ∀ v ∈ table.chain key, durable < v.sequence ∧ v.sequence ≤ table.maximumSequence

@[simp] theorem chain_atSequence (sequence : Nat) (key : Bytes) :
    (atSequence sequence).chain key = [] := rfl

theorem ordered_atSequence (sequence : Nat) : (atSequence sequence).Ordered sequence where
  le := le_rfl
  counted := fun _ => rfl
  increasing := by simp
  within := by simp

theorem find?_insertEntries (entries : List Entry) (key : Bytes) :
    (insertEntries versions entries).find? key =
      if chainOf key entries = [] then versions.find? key
      else some ((versions.find? key).getD [] ++ chainOf key entries) := by
  induction entries generalizing versions with
  | nil => simp [insertEntries]
  | cons entry rest ih =>
    show (insertEntries (insertVersion versions entry.1 entry.2) rest).find? key = _
    rw [ih, chainOf_cons]
    by_cases hkey : entry.1 = key
    · subst hkey
      simp only [insertVersion, SortedMap.find?_insert_self, if_true, Option.getD_some]
      split <;> simp_all
    · simp only [hkey, if_false, insertVersion, SortedMap.find?_insert_of_ne _ _ (Ne.symm hkey)]

theorem chain_insertEntries (table table' : Memtable) (entries : List Entry) (key : Bytes)
    (h : table'.versions = insertEntries table.versions entries) :
    table'.chain key = table.chain key ++ chainOf key entries := by
  rw [chain, h, find?_insertEntries]
  split
  · rename_i hnil
    simp [chain, hnil]
  · rfl

theorem applyWriteBatch_eq_ok {table table' : Memtable}
    (h : table.applyWriteBatch batch first last = .ok table') :
    first = saturatingAdd table.maximumSequence 1 ∧
    last + 1 = first + batch.len ∧ last ≤ u64Max ∧
    table'.maximumSequence = last ∧ table'.versionCount ≠ 0 ∧
    table'.versions = insertEntries table.versions (stampOperations first batch.operations) := by
  have hlen := batch.len_pos
  unfold applyWriteBatch at h
  split at h
  · next hchecked =>
      obtain ⟨rfl, hle⟩ := checkedAdd_eq_some hchecked
      simp only [ok_bind, unless_eq_ok, bind_eq_ok] at h
      obtain ⟨hcond, charge, hcharge, next, hnext, h⟩ := h
      cases h
      have hcount : next.versions = table.versionCount + batch.len := by
        rw [MutableCharge.checkedAdd_versions hnext, MutableCharge.batch_versions hcharge]
        rfl
      push Not at hcond
      refine ⟨hcond.1, by omega, by omega, rfl, ?_, rfl⟩
      show next.versions ≠ 0
      omega
  · cases h

/-- Acceptance: a batch that starts right after the table and whose charge fits
is applied. -/
theorem applyWriteBatch_ok {table : Memtable} {charge next : MutableCharge}
    (hfirst : first = saturatingAdd table.maximumSequence 1)
    (hlast : checkedAdd first (batch.len - 1) = some last)
    (hcharge : MutableCharge.batch batch = .ok charge)
    (hnext : table.charge.checkedAdd charge = .ok next) :
    ∃ table', table.applyWriteBatch batch first last = .ok table' := by
  unfold applyWriteBatch
  rw [hlast, hcharge]
  simp only [bind, Except.bind, pure, Except.pure, hnext]
  rw [if_neg (by simp [hfirst])]
  exact ⟨_, rfl⟩

/-- A batch keeps the chains ordered. -/
theorem Ordered.applyWriteBatch {table table' : Memtable} (hord : table.Ordered durable)
    (hmax : table.maximumSequence < u64Max)
    (h : table.applyWriteBatch batch first last = .ok table') : table'.Ordered durable := by
  obtain ⟨hfirst, hlast, -, hmax', hcount, hversions⟩ := applyWriteBatch_eq_ok h
  have hfirst' : first = table.maximumSequence + 1 := by
    rw [hfirst, saturatingAdd]; omega
  have hlen := batch.len_pos
  have hle := hord.le
  have hstamp : ∀ key, ∀ v ∈ chainOf key (stampOperations first batch.operations),
      table.maximumSequence < v.sequence ∧ v.sequence ≤ last := by
    intro key v hv
    obtain ⟨hge, hlt⟩ := mem_stampOperations (mem_chainOf.mp hv)
    simp only [WriteBatch.len] at hlast hge hlt
    omega
  refine ⟨by omega, fun h0 => absurd h0 hcount, ?_, ?_⟩
  · intro key
    rw [chain_insertEntries table table' _ key hversions]
    refine List.pairwise_append.mpr ⟨hord.increasing key, ?_, ?_⟩
    · exact List.Pairwise.filterMap _ (by
        intro a b hab v hv w hw
        simp only [Option.ite_none_right_eq_some, Option.some.injEq] at hv hw
        rw [← hv.2, ← hw.2]
        exact hab) (stampOperations_pairwise first batch.operations)
    · intro v hv w hw
      have := (hord.within key v hv).2
      have := (hstamp key w hw).1
      omega
  · intro key v hv
    rw [chain_insertEntries table table' _ key hversions] at hv
    rcases List.mem_append.mp hv with hv | hv
    · have := hord.within key v hv
      omega
    · have := hstamp key v hv
      omega

theorem getVersion_eq (readSequence : Nat) :
    table.getVersion key readSequence = visibleVersion (table.chain key) readSequence := by
  unfold getVersion chain
  cases table.versions.find? key with
  | none => rfl
  | some versions => rfl

theorem find?_eq_some_of_mem {table : Memtable} {chain : Bytes × List VersionedValue}
    (h : chain ∈ table.versions.toList) : table.versions.find? chain.1 = some chain.2 :=
  SortedMap.mem_toList_iff.mp h

theorem Ordered.isLatest_getVersion {table : Memtable} (hord : table.Ordered durable) (key : Bytes)
    (readSequence : Nat) :
    IsLatest VersionedValue.sequence readSequence (table.chain key)
      (table.getVersion key readSequence) := by
  rw [getVersion_eq]
  exact isLatest_find?_reverse (hord.increasing key)

theorem Ordered.nodup_sequences {table : Memtable} (hord : table.Ordered durable) (key : Bytes) :
    ((table.chain key).map VersionedValue.sequence).Nodup :=
  (List.pairwise_map.mpr (hord.increasing key)).imp fun h => h.ne

end Memtable

end Rrflow.Lsm

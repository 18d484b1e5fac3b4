import Rrflow.Lib.Octets
import Rrflow.Lib.Stable
import Rrflow.Kernel.Ident

/-!
Claims and their resolution in time.

A claim is one assertion about a subject and a predicate with a window of valid
time and the time at which it was recorded. Versions with one start are
corrections of one claim: only the newest of them may answer.
-/

namespace Rrflow.Kernel

open Checks Octets List

inductive Tier
  | localTier | primary | tenant
  deriving DecidableEq, Repr

inductive PromotionState
  | unpromoted | pending | promoted | denied
  deriving DecidableEq, Repr

structure Producer where
  actor : String
  onBehalfOf : Option String
  session : Option String
  deriving DecidableEq

/-- One claim. The confidence is the bit pattern of a 32-bit float. -/
structure Claim where
  subject : Subject
  predicate : Predicate
  object : String
  validFrom : Nat
  validTo : Option Nat
  txTime : Nat
  producer : Producer
  confidence : Option (Fin (2 ^ 32))
  supersedes : Option String
  signature : Option String
  tier : Tier
  promotionState : PromotionState
  deriving DecidableEq

namespace Claim

/-- The window is half open: at the instant of its retirement a claim is over. -/
def validAt (claim : Claim) (asOf : Nat) : Bool :=
  if asOf < claim.validFrom then false
  else
    match claim.validTo with
    | some stop => decide (asOf < stop)
    | none => true

def validate (claim : Claim) : Except Error Unit :=
  match claim.validTo with
  | some stop => ensure (claim.validFrom < stop) (.invalidValidityWindow claim.validFrom stop)
  | none => .ok ()

def utf8 (text : String) : List (Fin 256) := text.toUTF8.toList.map fun byte => byte.toFin

def textBytes (text : String) : List (Fin 256) :=
  bigEndian 8 (utf8 text).length ++ utf8 text

def optionalTextBytes : Option String → List (Fin 256)
  | none => [0]
  | some text => 1 :: textBytes text

def Tier.tag : Tier → Fin 256
  | .localTier => 0
  | .primary => 1
  | .tenant => 2

def PromotionState.tag : PromotionState → Fin 256
  | .unpromoted => 0
  | .pending => 1
  | .promoted => 2
  | .denied => 3

/-- The bytes that identify a claim: every field takes part. -/
def canonicalBytes (claim : Claim) : List (Fin 256) :=
  utf8 "rrflow-claim-v1" ++ [0] ++ textBytes claim.subject.val ++ textBytes claim.predicate.val ++
    textBytes claim.object ++ bigEndian 8 claim.validFrom ++
    (match claim.validTo with
      | none => [0]
      | some stop => 1 :: bigEndian 8 stop) ++
    bigEndian 8 claim.txTime ++ textBytes claim.producer.actor ++
    optionalTextBytes claim.producer.onBehalfOf ++ optionalTextBytes claim.producer.session ++
    (match claim.confidence with
      | none => [0]
      | some bits => 1 :: bigEndian 4 bits.val) ++
    optionalTextBytes claim.supersedes ++ optionalTextBytes claim.signature ++
    [Tier.tag claim.tier, PromotionState.tag claim.promotionState]

end Claim

/-- The scan of `resolveAsOf`; `skipped` is the start whose newest version was
already seen. -/
def resolveFrom (asOf : Nat) : Option Nat → List Claim → Option Claim
  | _, [] => none
  | skipped, claim :: rest =>
    if skipped = some claim.validFrom then resolveFrom asOf skipped rest
    else if claim.validAt asOf then some claim
    else resolveFrom asOf (some claim.validFrom) rest

variable (candidates : List Claim)

/-- The claim in force at an instant, from candidates in newest-first order. -/
def resolveAsOf (asOf : Nat) : Option Claim :=
  resolveFrom asOf none candidates

/-- The order of the snapshots: later starts first, then later records, then the
canonical bytes. -/
def NewestFirst (a b : Claim) : Prop :=
  b.validFrom < a.validFrom ∨ b.validFrom = a.validFrom ∧
    (b.txTime < a.txTime ∨ b.txTime = a.txTime ∧ a.canonicalBytes ≤ b.canonicalBytes)

instance : DecidableRel NewestFirst := fun a b => by
  unfold NewestFirst
  infer_instance

theorem newestFirst_trans {a b c : Claim} (hab : NewestFirst a b) (hbc : NewestFirst b c) :
    NewestFirst a c := by
  rcases hab with hab | ⟨hab, hab' | ⟨hab', hbytes⟩⟩ <;>
    rcases hbc with hbc | ⟨hbc, hbc' | ⟨hbc', hbytes'⟩⟩ <;>
    first
    | exact .inl (by omega)
    | exact .inr ⟨by omega, .inl (by omega)⟩
    | exact .inr ⟨by omega, .inr ⟨by omega, hbytes.trans hbytes'⟩⟩

theorem newestFirst_total (a b : Claim) : NewestFirst a b ∨ NewestFirst b a := by
  rcases lt_trichotomy a.validFrom b.validFrom with h | h | h
  · exact .inr (.inl h)
  · rcases lt_trichotomy a.txTime b.txTime with h' | h' | h'
    · exact .inr (.inr ⟨h, .inl h'⟩)
    · rcases le_total a.canonicalBytes b.canonicalBytes with hbytes | hbytes
      · exact .inl (.inr ⟨h.symm, .inr ⟨h'.symm, hbytes⟩⟩)
      · exact .inr (.inr ⟨h, .inr ⟨h', hbytes⟩⟩)
    · exact .inl (.inr ⟨h.symm, .inl h'⟩)
  · exact .inl (.inl h)

instance : IsTrans Claim NewestFirst := ⟨fun _ _ _ => newestFirst_trans⟩

instance : Std.Total NewestFirst := ⟨newestFirst_total⟩

/-! ### What a resolution selects -/

/-- The first candidate of each run of equal starts. -/
def runHeadsFrom : Option Nat → List Claim → List Claim
  | _, [] => []
  | skipped, claim :: rest =>
    if skipped = some claim.validFrom then runHeadsFrom skipped rest
    else claim :: runHeadsFrom (some claim.validFrom) rest

def runHeads : List Claim := runHeadsFrom none candidates

theorem resolveFrom_eq_find? (asOf : Nat) (skipped : Option Nat) (candidates : List Claim) :
    resolveFrom asOf skipped candidates =
      (runHeadsFrom skipped candidates).find? (·.validAt asOf) := by
  induction candidates generalizing skipped with
  | nil => rfl
  | cons claim rest ih =>
    rw [resolveFrom, runHeadsFrom]
    split
    · exact ih skipped
    · rw [find?_cons, ih]
      cases claim.validAt asOf <;> rfl

theorem resolveAsOf_eq_find? (asOf : Nat) :
    resolveAsOf candidates asOf = (runHeads candidates).find? (·.validAt asOf) :=
  resolveFrom_eq_find? asOf none candidates

variable {candidates : List Claim} {claim : Claim}

variable {asOf : Nat}

section Descending

variable (hsorted : candidates.Pairwise fun a b => b.validFrom ≤ a.validFrom)

include hsorted

/-- In a list whose starts descend, the run heads are the first candidates of
their start. -/
theorem mem_runHeadsFrom {skipped : Option Nat}
    (hskipped : ∀ start ∈ skipped, ∀ claim ∈ candidates, claim.validFrom ≤ start) :
    claim ∈ runHeadsFrom skipped candidates ↔
      skipped ≠ some claim.validFrom ∧
        candidates.find? (fun other => other.validFrom == claim.validFrom) = some claim := by
  induction candidates generalizing skipped with
  | nil => simp [runHeadsFrom]
  | cons head rest ih =>
    rw [pairwise_cons] at hsorted
    have hrest : ∀ start ∈ skipped, ∀ claim ∈ rest, claim.validFrom ≤ start :=
      fun start hstart claim hclaim =>
        hskipped start hstart claim (mem_cons_of_mem _ hclaim)
    rw [runHeadsFrom, find?_cons]
    by_cases hsame : skipped = some head.validFrom
    · rw [if_pos hsame, ih hsorted.2 hrest]
      by_cases hstart : head.validFrom = claim.validFrom
      · simp [hsame, hstart]
      · simp [beq_false_of_ne hstart]
    · rw [if_neg hsame, mem_cons, ih hsorted.2 (by simpa using hsorted.1)]
      by_cases hstart : head.validFrom = claim.validFrom
      · simp only [hstart, ne_eq, not_true_eq_false, false_and, or_false, beq_self_eq_true,
          Option.some.injEq]
        constructor
        · rintro rfl
          exact ⟨hsame, rfl⟩
        · exact fun h => h.2.symm
      · have hne : claim ≠ head := fun h => hstart (h ▸ rfl)
        simp only [beq_false_of_ne hstart, hne, false_or, Option.some.injEq, ne_eq, hstart,
          not_false_eq_true, true_and]
        constructor
        · intro hfind
          refine ⟨?_, hfind⟩
          rintro rfl
          -- The start to be skipped is not above the head's, nor below it.
          have hle := hskipped _ rfl head (mem_cons_self ..)
          have hge := hsorted.1 claim (mem_of_find?_eq_some hfind)
          exact hstart (le_antisymm hle hge)
        · exact fun h => h.2

theorem pairwise_runHeadsFrom {skipped : Option Nat} :
    (runHeadsFrom skipped candidates).Pairwise fun a b => b.validFrom < a.validFrom := by
  induction candidates generalizing skipped with
  | nil => exact .nil
  | cons head rest ih =>
    rw [pairwise_cons] at hsorted
    rw [runHeadsFrom]
    split
    · exact ih hsorted.2
    · refine pairwise_cons.mpr ⟨?_, ih hsorted.2⟩
      intro claim hclaim
      rw [mem_runHeadsFrom hsorted.2 (by simpa using hsorted.1)] at hclaim
      exact lt_of_le_of_ne (hsorted.1 claim (mem_of_find?_eq_some hclaim.2))
        fun h => hclaim.1 (by rw [h])

/-- Resolution of candidates whose starts descend: the first candidate of a start answers,
if it is valid and no first candidate of a later start is. -/
theorem resolveAsOf_eq_some :
    resolveAsOf candidates asOf = some claim ↔
      candidates.find? (fun other => other.validFrom == claim.validFrom) = some claim ∧
      claim.validAt asOf = true ∧
      ∀ start > claim.validFrom, ∀ other ∈ candidates.find? (fun other => other.validFrom == start),
        other.validAt asOf = false := by
  have hmem : ∀ other, other ∈ runHeads candidates ↔
      candidates.find? (fun claim => claim.validFrom == other.validFrom) = some other := by
    intro other
    rw [runHeads, mem_runHeadsFrom hsorted (by simp)]
    simp
  have hpairs : (runHeads candidates).Pairwise fun a b => b.validFrom < a.validFrom :=
    pairwise_runHeadsFrom hsorted
  rw [resolveAsOf_eq_find?, find?_eq_some_iff_append]
  constructor
  · rintro ⟨hvalid, newer, older, hheads, hnewer⟩
    rw [hheads] at hmem hpairs
    refine ⟨(hmem claim).mp (by simp), hvalid, fun start hstart other hother => ?_⟩
    have hfrom : other.validFrom = start := by simpa using find?_some hother
    have hother' : other ∈ newer ++ claim :: older := by
      rw [hmem, hfrom]
      exact hother
    rcases mem_append.mp hother' with hother' | hother'
    · simpa using hnewer other hother'
    · have hle : other.validFrom ≤ claim.validFrom := by
        rcases mem_cons.mp hother' with rfl | hother'
        · exact le_rfl
        · exact ((pairwise_cons.mp (pairwise_append.mp hpairs).2.1).1 other hother').le
      omega
  · rintro ⟨hfirst, hvalid, hlater⟩
    obtain ⟨newer, older, hheads⟩ := append_of_mem ((hmem claim).mpr hfirst)
    refine ⟨hvalid, newer, older, hheads, fun other hother => ?_⟩
    rw [hheads] at hmem hpairs
    have hstart : claim.validFrom < other.validFrom :=
      (pairwise_append.mp hpairs).2.2 other hother claim (mem_cons_self ..)
    have hnewest := (hmem other).mp (mem_append_left _ hother)
    simp [hlater _ hstart other hnewest]

theorem resolveAsOf_eq_none :
    resolveAsOf candidates asOf = none ↔
      ∀ start, ∀ other ∈ candidates.find? (fun other => other.validFrom == start),
        other.validAt asOf = false := by
  rw [resolveAsOf_eq_find?, find?_eq_none]
  constructor
  · intro hall start other hother
    have hfrom : other.validFrom = start := by simpa using find?_some hother
    have hmem : other ∈ runHeads candidates := by
      rw [runHeads, mem_runHeadsFrom hsorted (by simp), hfrom]
      exact ⟨nofun, hother⟩
    simpa using hall other hmem
  · intro hall other hother
    rw [runHeads, mem_runHeadsFrom hsorted (by simp)] at hother
    simp [hall _ other hother.2]

end Descending

def newestCorrection (versions : List Claim) (start : Nat) : Option Claim :=
  Stable.best NewestFirst (versions.filter fun claim => claim.validFrom == start)

/-- The claim in force: the newest correction of its start, valid at the instant,
while the newest correction of every later start is not. -/
structure InForce (asOf : Nat) (versions : List Claim) (claim : Claim) : Prop where
  newest : newestCorrection versions claim.validFrom = some claim
  valid : claim.validAt asOf = true
  later : ∀ start > claim.validFrom, ∀ other ∈ newestCorrection versions start,
    other.validAt asOf = false

theorem InForce.mem {versions : List Claim} (h : InForce asOf versions claim) : claim ∈ versions :=
  mem_of_mem_filter (Stable.best_mem h.newest)

theorem resolveAsOf_newestFirst {versions : List Claim} :
    resolveAsOf (versions.insertionSort NewestFirst) asOf = some claim ↔
      InForce asOf versions claim := by
  have hsorted : (versions.insertionSort NewestFirst).Pairwise
      fun a b => b.validFrom ≤ a.validFrom :=
    (pairwise_insertionSort NewestFirst versions).imp fun h => by
      rcases h with h | ⟨h, -⟩ <;> omega
  rw [resolveAsOf_eq_some hsorted]
  simp only [Stable.find?_insertionSort]
  exact ⟨fun h => ⟨h.1, h.2.1, h.2.2⟩, fun h => ⟨h.newest, h.valid, h.later⟩⟩

end Rrflow.Kernel

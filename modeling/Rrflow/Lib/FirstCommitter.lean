import Mathlib

/-!
Transactions over a store with snapshot isolation.

A request reads the state at which its transaction began and prepares its writes
there. The writes are applied to the current state if no transaction that committed
in between has written one of their places: the first committer wins. Callers and
their interleavings do not appear: a caller is the transactions it commits, each
begun at any earlier point, and refused transactions leave no trace.

The rule for invariants is `Serves.induction`. A transaction that writes a guard place
saw the part of the state that is only written together with it as it is at the commit.
-/

namespace FirstCommitter

open List

/-- States with writes, the places that writes go to, and requests. -/
structure System (σ ω π ρ : Type) where
  initial : σ
  apply : σ → ω → σ
  place : ω → π
  prepares : ρ → σ → List ω → Prop

variable {σ ω π ρ : Type}

namespace System

variable (system : System σ ω π ρ)

def applyAll (state : σ) (writes : List ω) : σ := writes.foldl system.apply state

/-- The state after the committed transactions. -/
def stateOf (history : List (ρ × List ω)) : σ :=
  history.foldl (fun state entry => system.applyAll state entry.2) system.initial

inductive Serves : List (ρ × List ω) → Prop
  | nil : Serves []
  | commit {history : List (ρ × List ω)} {start : ℕ} {request : ρ} {writes : List ω} :
      Serves history →
      system.prepares request (system.stateOf (history.take start)) writes →
      (∀ entry ∈ history.drop start, ∀ earlier ∈ entry.2, ∀ write ∈ writes,
        system.place earlier ≠ system.place write) →
      Serves (history ++ [(request, writes)])

/-- A part of the state that changes only together with a place. -/
def Guarded {α : Type} (part : σ → α) (guard : π) : Prop :=
  ∀ request state writes, system.prepares request state writes →
    (∃ write ∈ writes, system.place write = guard) ∨
      ∀ other, part (system.applyAll other writes) = part other

variable {system}

theorem stateOf_concat (history : List (ρ × List ω)) (entry : ρ × List ω) :
    system.stateOf (history ++ [entry]) = system.applyAll (system.stateOf history) entry.2 := by
  rw [stateOf, foldl_append]
  rfl

theorem Serves.prepared {history : List (ρ × List ω)} (h : system.Serves history) :
    ∀ entry ∈ history, ∃ state, system.prepares entry.1 state entry.2 := by
  induction h with
  | nil => simp
  | commit _ hprepares _ ih =>
    intro entry hmem
    rcases mem_append.mp hmem with hmem | hmem
    · exact ih entry hmem
    · rw [mem_singleton.mp hmem]
      exact ⟨_, hprepares⟩

/-- A guarded part as it was at the start of a transaction that may still commit. -/
theorem Guarded.stable {α : Type} {part : σ → α} {guard : π} (hguard : system.Guarded part guard)
    {history : List (ρ × List ω)} (hserves : system.Serves history) (start : ℕ)
    (hfree : ∀ entry ∈ history.drop start, ∀ earlier ∈ entry.2, system.place earlier ≠ guard) :
    part (system.stateOf history) = part (system.stateOf (history.take start)) := by
  have hlater : ∀ (later : List (ρ × List ω)) (state : σ), (∀ entry ∈ later, entry ∈ history) →
      (∀ entry ∈ later, ∀ earlier ∈ entry.2, system.place earlier ≠ guard) →
      part (later.foldl (fun state entry => system.applyAll state entry.2) state) = part state := by
    intro later
    induction later with
    | nil => intro state _ _; rfl
    | cons entry rest ih =>
      intro state hmem hplaces
      rw [foldl_cons, ih _ (fun e he => hmem e (mem_cons_of_mem _ he))
        (fun e he => hplaces e (mem_cons_of_mem _ he))]
      obtain ⟨seen, hprepares⟩ := hserves.prepared entry (hmem entry mem_cons_self)
      rcases hguard _ _ _ hprepares with ⟨write, hwrite, hplace⟩ | hframe
      · exact absurd hplace (hplaces entry mem_cons_self write hwrite)
      · exact hframe state
  have hsplit : system.stateOf history = (history.drop start).foldl
      (fun state entry => system.applyAll state entry.2) (system.stateOf (history.take start)) := by
    rw [stateOf, stateOf, ← foldl_append, take_append_drop]
  rw [hsplit]
  exact hlater _ _ (fun entry hmem => mem_of_mem_drop hmem) hfree

/-- What holds of the empty history and is kept by every commit holds of every history.
A committing transaction saw every part whose guard it writes as it is now. -/
theorem Serves.induction {P : List (ρ × List ω) → Prop} {history : List (ρ × List ω)}
    (h : system.Serves history) (hnil : P [])
    (hcommit : ∀ (history : List (ρ × List ω)) (request : ρ) (writes : List ω) (seen : σ),
      system.Serves history → P history → system.prepares request seen writes →
      (∀ {α : Type} (part : σ → α) (guard : π), system.Guarded part guard →
        (∃ write ∈ writes, system.place write = guard) →
        part seen = part (system.stateOf history)) →
      P (history ++ [(request, writes)])) : P history := by
  induction h with
  | nil => exact hnil
  | commit hserves hprepares hfree ih =>
    refine hcommit _ _ _ _ hserves ih hprepares ?_
    rintro α part guard hguard ⟨write, hwrite, rfl⟩
    exact (hguard.stable hserves _ fun entry hentry earlier hearlier =>
      hfree entry hentry earlier hearlier write hwrite).symm

end System

end FirstCommitter

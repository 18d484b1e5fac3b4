import Mathlib

/-!
Searches for the boundary of a partitioned sequence.

A sequence is partitioned by a test when the elements that pass come before
those that fail. `partitionPoint` is the number of elements that pass; `bisect`
finds the same position by halving an interval.
-/

namespace Search

open List

variable {α : Type*}

variable (p : α → Bool)

variable (l : List α)

/-- Number of leading elements that pass the test. -/
def partitionPoint : ℕ := (l.takeWhile p).length

theorem take_partitionPoint : l.take (partitionPoint p l) = l.takeWhile p := by
  induction l with
  | nil => rfl
  | cons a l ih =>
    by_cases h : p a
    · simp only [partitionPoint] at ih
      simp [partitionPoint, h, ih]
    · simp [partitionPoint, h]

theorem drop_partitionPoint : l.drop (partitionPoint p l) = l.dropWhile p := by
  induction l with
  | nil => rfl
  | cons a l ih =>
    by_cases h : p a
    · simp only [partitionPoint] at ih
      simp [partitionPoint, h, ih]
    · simp [partitionPoint, h]

theorem partitionPoint_le_length : partitionPoint p l ≤ l.length :=
  (takeWhile_sublist p).length_le

/-- In a partitioned list, what is dropped fails the test. -/
theorem not_of_mem_dropWhile {p : α → Bool} {l : List α} {a : α}
    (hl : l.Pairwise (fun x y => p y = true → p x = true)) (h : a ∈ l.dropWhile p) :
    p a = false := by
  induction l with
  | nil => simp at h
  | cons b l ih =>
    rw [pairwise_cons] at hl
    by_cases hb : p b
    · rw [dropWhile_cons_of_pos hb] at h
      exact ih hl.2 h
    · rw [dropWhile_cons_of_neg hb] at h
      rcases mem_cons.mp h with rfl | h
      · simpa using hb
      · by_contra ha
        exact hb (hl.1 a h (by simpa using ha))

/-- In a partitioned list, the positions before the boundary are those whose
element passes the test. -/
theorem lt_partitionPoint_iff {p : α → Bool} {l : List α} {i : ℕ} {a : α}
    (hl : l.Pairwise (fun x y => p y = true → p x = true)) (hi : l[i]? = some a) :
    i < partitionPoint p l ↔ p a = true := by
  constructor
  · intro hlt
    have hmem : a ∈ l.take (partitionPoint p l) :=
      mem_of_getElem? (by rw [getElem?_take_of_lt hlt]; exact hi)
    rw [take_partitionPoint] at hmem
    exact mem_takeWhile_imp hmem
  · intro hp
    by_contra hge
    have hmem : a ∈ l.drop (partitionPoint p l) :=
      mem_of_getElem? (i := i - partitionPoint p l) (by
        rw [getElem?_drop, Nat.add_sub_cancel' (not_lt.mp hge)]; exact hi)
    rw [drop_partitionPoint] at hmem
    simp [not_of_mem_dropWhile hl hmem] at hp

/-- Halving of the interval `[left, right)`; `fuel` bounds the rounds. -/
def bisect (below : ℕ → Bool) : ℕ → ℕ → ℕ → ℕ
  | 0, left, _ => left
  | fuel + 1, left, right =>
    if left < right then
      let middle := left + (right - left) / 2
      if below middle then bisect below fuel (middle + 1) right
      else bisect below fuel left middle
    else left

/-- With as much fuel as the interval is long, the search ends at the boundary
it encloses. -/
theorem bisect_eq {below : ℕ → Bool} {boundary fuel left right : ℕ}
    (hbelow : ∀ i, left ≤ i → i < right → (below i = true ↔ i < boundary))
    (hleft : left ≤ boundary) (hright : boundary ≤ right) (hfuel : right - left ≤ fuel) :
    bisect below fuel left right = boundary := by
  induction fuel generalizing left right with
  | zero =>
    simp only [bisect]
    omega
  | succ fuel ih =>
    simp only [bisect]
    split
    · rename_i hlt
      set middle := left + (right - left) / 2 with hmiddle
      have hm := hbelow middle (by omega) (by omega)
      split
      · rename_i hp
        have := hm.mp hp
        exact ih (fun i h₁ h₂ => hbelow i (by omega) h₂) (by omega) hright (by omega)
      · rename_i hp
        have : ¬middle < boundary := fun h => hp (hm.mpr h)
        exact ih (fun i h₁ h₂ => hbelow i h₁ (by omega)) hleft (by omega) (by omega)
    · omega

end Search

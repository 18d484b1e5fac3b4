import Mathlib

/-!
Codes that keep the order of their values.

Words are compared letter by letter, a proper prefix before its extensions. A code is
lexical for an order when comparing two codes with anything behind them compares the
values first and what is behind them only for equal values. Codes of one length are
lexical as soon as they are monotone; words of any length are made lexical by cutting
them into padded groups, each closed by a mark that grows with the letters used.
-/

namespace OrderCode

open List

section Words

variable {β : Type} [LinearOrder β]

theorem append_lt_append_iff {u v s t : List β} (h : u.length = v.length) :
    u ++ s < v ++ t ↔ u < v ∨ (u = v ∧ s < t) := by
  induction u generalizing v with
  | nil =>
    rw [length_nil, eq_comm, length_eq_zero_iff] at h
    subst h
    simp
  | cons x u ih =>
    cases v with
    | nil => simp at h
    | cons y v =>
      rw [cons_append, cons_append, cons_lt_cons_iff, cons_lt_cons_iff,
        ih (by simpa using h), List.cons.injEq]
      tauto

/-- Comparing words is comparing their beginnings and then what is left. -/
theorem lt_iff_take_drop (n : ℕ) {u v : List β} :
    u < v ↔ u.take n < v.take n ∨ (u.take n = v.take n ∧ u.drop n < v.drop n) := by
  induction n generalizing u v with
  | zero => simp
  | succ n ih =>
    cases u with
    | nil => cases v <;> simp
    | cons x u =>
      cases v with
      | nil => simp
      | cons y v =>
        rw [take_succ_cons, take_succ_cons, drop_succ_cons,
          drop_succ_cons, cons_lt_cons_iff, cons_lt_cons_iff, ih,
          List.cons.injEq]
        tauto

end Words

section Groups

variable {β : Type} [LinearOrder β] [OrderBot β]

/-- A group of `n` letters: the word, its padding and a mark for its length. -/
def group (n : ℕ) (mark : ℕ → β) (word : List β) : List β :=
  word ++ List.replicate (n - word.length) ⊥ ++ [mark word.length]

theorem length_group {n : ℕ} {mark : ℕ → β} {word : List β} (h : word.length ≤ n) :
    (group n mark word).length = n + 1 := by
  simp only [group, length_append, length_replicate, length_singleton]
  omega

theorem group_cons (n : ℕ) (mark : ℕ → β) (x : β) (word : List β) :
    group (n + 1) mark (x :: word) = x :: group n (fun i => mark (i + 1)) word := by
  simp [group]

theorem group_nil_succ (n : ℕ) (mark : ℕ → β) : group (n + 1) mark [] = ⊥ :: group n mark [] := by
  simp [group, replicate_succ]

/-- Padding only is below every group with a larger mark. -/
theorem group_nil_lt {n : ℕ} {low mark : ℕ → β} (hmark : ∀ i ≤ n, low 0 < mark i)
    {word : List β} (h : word.length ≤ n) : group n low [] < group n mark word := by
  induction n generalizing low mark word with
  | zero =>
    rw [Nat.le_zero, length_eq_zero_iff] at h
    subst h
    exact cons_lt_cons_iff.mpr (.inl (hmark 0 (le_refl 0)))
  | succ n ih =>
    rw [group_nil_succ]
    cases word with
    | nil =>
      rw [group_nil_succ, cons_lt_cons_iff]
      exact .inr ⟨rfl, ih (fun i hi => hmark i (by omega)) (by simp)⟩
    | cons x word =>
      rw [group_cons, cons_lt_cons_iff]
      rcases (bot_le : ⊥ ≤ x).lt_or_eq with hlt | rfl
      · exact .inl hlt
      · exact .inr ⟨rfl, ih (fun i hi => hmark (i + 1) (by omega)) (by simpa using h)⟩

theorem group_lt_group_iff {n : ℕ} {mark : ℕ → β} (hmark : ∀ i j, i < j → j ≤ n → mark i < mark j)
    {u v : List β} (hu : u.length ≤ n) (hv : v.length ≤ n) :
    group n mark u < group n mark v ↔ u < v := by
  induction n generalizing mark u v with
  | zero =>
    rw [Nat.le_zero, length_eq_zero_iff] at hu hv
    subst hu hv
    simp
  | succ n ih =>
    -- the words are compared at their first letter; a missing one counts as padding
    cases u with
    | nil =>
      cases v with
      | nil => simp
      | cons y v =>
        refine iff_of_true ?_ (nil_lt_cons _ _)
        rw [group_nil_succ, group_cons, cons_lt_cons_iff]
        rcases (bot_le : ⊥ ≤ y).lt_or_eq with hlt | rfl
        · exact .inl hlt
        · exact .inr ⟨rfl, group_nil_lt (fun i hi => hmark 0 (i + 1) (by omega) (by omega))
            (by simpa using hv)⟩
    | cons x u =>
      cases v with
      | nil =>
        refine iff_of_false (fun hlt => ?_) (by simp)
        rw [group_nil_succ, group_cons, cons_lt_cons_iff] at hlt
        rcases hlt with hlt | ⟨-, hlt⟩
        · exact not_lt_bot hlt
        · exact lt_asymm hlt (group_nil_lt
            (fun i hi => hmark 0 (i + 1) (by omega) (by omega)) (by simpa using hu))
      | cons y v =>
        rw [group_cons, group_cons, cons_lt_cons_iff, cons_lt_cons_iff,
          ih (fun i j hij hj => hmark (i + 1) (j + 1) (by omega) (by omega))
            (by simpa using hu) (by simpa using hv)]

theorem group_inj {n : ℕ} {mark : ℕ → β} (hmark : ∀ i j, i < j → j ≤ n → mark i < mark j)
    {u v : List β} (hu : u.length ≤ n) (hv : v.length ≤ n) :
    group n mark u = group n mark v ↔ u = v := by
  refine ⟨fun heq => ?_, fun h => h ▸ rfl⟩
  apply le_antisymm
  · rw [← not_lt, ← group_lt_group_iff hmark hv hu, heq]
    exact lt_irrefl _
  · rw [← not_lt, ← group_lt_group_iff hmark hu hv, heq]
    exact lt_irrefl _

end Groups

section Lexical

variable {α β : Type} [LinearOrder β]

/-- Codes with anything behind them are compared by their values first. -/
def Lexical (r : α → α → Prop) (code : α → List β) (a b : α) : Prop :=
  ∀ s t, code a ++ s < code b ++ t ↔ r a b ∨ (a = b ∧ s < t)

/-- Codes after one another compare lists of values. -/
theorem lexical_flatMap {r : α → α → Prop} {code : α → List β} {as bs : List α}
    (h : List.Forall₂ (Lexical r code) as bs) :
    Lexical (List.Lex r) (List.flatMap code) as bs := by
  induction h with
  | nil =>
    intro s t
    simp
  | @cons a b as bs hhead htail ih =>
    intro s t
    rw [flatMap_cons, flatMap_cons, append_assoc, append_assoc,
      hhead _ _, ih _ _, cons_lex_cons_iff, List.cons.injEq]
    tauto

end Lexical

end OrderCode

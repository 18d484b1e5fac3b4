import Mathlib

/-!
Reads at a point in time.

Elements carry a rank, the moment they were written. A read at `s` asks for the
element of greatest rank among those of rank at most `s`. `IsLatest` states that
an answer is right without saying how it was found, so that a search from the
end of a sorted list, a search in several lists, and a fold over all elements
can be compared: when ranks are distinct the answer is unique
(`IsLatest.unique`).

The second half says when replacing a list keeps the answers: by a permutation, by a
part that keeps the answer, or by an extension with elements of greater rank.
-/

namespace Latest

open List

variable {α : Type*} {rank : α → ℕ} {s t : ℕ} {l l₁ l₂ : List α} {o o' : Option α}

/-- `o` is the element of `l` of greatest rank at most `s`, or `none` when every
element has a greater rank. -/
def IsLatest (rank : α → ℕ) (s : ℕ) (l : List α) : Option α → Prop
  | none => ∀ w ∈ l, s < rank w
  | some v => v ∈ l ∧ rank v ≤ s ∧ ∀ w ∈ l, rank w ≤ s → rank w ≤ rank v

/-- The element of greater rank, the first one at equal ranks. -/
def newer (rank : α → ℕ) : Option α → Option α → Option α
  | none, b => b
  | some a, none => some a
  | some a, some b => if rank a < rank b then some b else some a

/-- The latest element at or before `s`, by a fold over the whole list. -/
def latest (rank : α → ℕ) (s : ℕ) (l : List α) : Option α :=
  l.foldr (fun v best => newer rank (if rank v ≤ s then some v else none) best) none

theorem eq_of_rank_eq {v w : α} (hnd : (l.map rank).Nodup) (hv : v ∈ l) (hw : w ∈ l)
    (h : rank v = rank w) : v = w :=
  inj_on_of_nodup_map hnd hv hw h

/-- When a rank determines the element, a read has one answer. -/
theorem IsLatest.unique_of_inj (hinj : ∀ v ∈ l, ∀ w ∈ l, rank v = rank w → v = w)
    (h : IsLatest rank s l o) (h' : IsLatest rank s l o') : o = o' := by
  match o, o' with
  | none, none => rfl
  | none, some v => exact absurd (h v h'.1) (not_lt.mpr h'.2.1)
  | some v, none => exact absurd (h' v h.1) (not_lt.mpr h.2.1)
  | some v, some w =>
    have hrank : rank v = rank w :=
      le_antisymm (h'.2.2 v h.1 h.2.1) (h.2.2 w h'.1 h'.2.1)
    rw [hinj v h.1 w h'.1 hrank]

theorem IsLatest.unique (hnd : (l.map rank).Nodup) (h : IsLatest rank s l o)
    (h' : IsLatest rank s l o') : o = o' :=
  h.unique_of_inj (fun _ hv _ hw => eq_of_rank_eq hnd hv hw) h'

/-! ### Searches -/

theorem isLatest_nil (rank : α → ℕ) (s : ℕ) : IsLatest rank s ([] : List α) none := by
  intro w hw
  simp at hw

/-- An answer of the first list that nothing visible in the second one outranks. -/
theorem IsLatest.append_left {v : α} (h : IsLatest rank s l₁ (some v))
    (hle : ∀ w ∈ l₂, rank w ≤ s → rank w ≤ rank v) : IsLatest rank s (l₁ ++ l₂) (some v) :=
  ⟨mem_append_left _ h.1, h.2.1, forall_mem_append.mpr ⟨h.2.2, hle⟩⟩

theorem IsLatest.append_right {v : α} (h : IsLatest rank s l₂ (some v))
    (hle : ∀ w ∈ l₁, rank w ≤ s → rank w ≤ rank v) : IsLatest rank s (l₁ ++ l₂) (some v) :=
  ⟨mem_append_right _ h.1, h.2.1, forall_mem_append.mpr ⟨hle, h.2.2⟩⟩

/-- Two lists are searched separately and the newer answer is taken. -/
theorem IsLatest.append (h₁ : IsLatest rank s l₁ o) (h₂ : IsLatest rank s l₂ o') :
    IsLatest rank s (l₁ ++ l₂) (newer rank o o') := by
  match o, o' with
  | none, none => exact forall_mem_append.mpr ⟨h₁, h₂⟩
  | none, some v => exact h₂.append_right fun w hw hws => absurd (h₁ w hw) (not_lt.mpr hws)
  | some v, none => exact h₁.append_left fun w hw hws => absurd (h₂ w hw) (not_lt.mpr hws)
  | some v, some u =>
    simp only [newer]
    split
    · next hlt => exact h₂.append_right fun w hw hws => (h₁.2.2 w hw hws).trans hlt.le
    · next hge => exact h₁.append_left fun w hw hws => (h₂.2.2 w hw hws).trans (not_lt.mp hge)

/-- Elements of greater rank are not seen by an earlier read. -/
theorem IsLatest.append_later (h : IsLatest rank s l₁ o) (hlater : ∀ w ∈ l₂, s < rank w) :
    IsLatest rank s (l₁ ++ l₂) o := by
  have h₂ : IsLatest rank s l₂ none := hlater
  have := h.append h₂
  cases o <;> exact this

/-- In a list with increasing ranks, the answer is the first hit from the
end. -/
theorem isLatest_find?_reverse (h : l.Pairwise (fun a b => rank a < rank b)) :
    IsLatest rank s l (l.reverse.find? (fun v => decide (rank v ≤ s))) := by
  induction l using List.reverseRecOn with
  | nil => exact isLatest_nil rank s
  | append_singleton l v ih =>
    rw [pairwise_append] at h
    obtain ⟨hl, -, hlt⟩ := h
    rw [reverse_append, reverse_singleton, singleton_append, find?_cons]
    by_cases hv : rank v ≤ s
    · simp only [hv, decide_true]
      have hlast : IsLatest rank s [v] (some v) := ⟨by simp, hv, by simp⟩
      exact hlast.append_right fun w hw _ => (hlt w hw v (by simp)).le
    · simp only [hv, decide_false]
      exact (ih hl).append_later (by simpa using hv)

theorem isLatest_singleton (rank : α → ℕ) (s : ℕ) (v : α) :
    IsLatest rank s [v] (if rank v ≤ s then some v else none) := by
  split
  · rename_i h
    exact ⟨by simp, h, by simp⟩
  · rename_i h
    intro w hw
    rw [mem_singleton.mp hw]
    omega

theorem isLatest_latest (rank : α → ℕ) (s : ℕ) (l : List α) :
    IsLatest rank s l (latest rank s l) := by
  induction l with
  | nil => exact isLatest_nil rank s
  | cons v l ih => exact (isLatest_singleton rank s v).append ih

theorem latest_cons (v : α) (l : List α) :
    latest rank s (v :: l) = newer rank (if rank v ≤ s then some v else none) (latest rank s l) :=
  rfl

theorem newer_none (a : Option α) : newer rank a none = a := by
  cases a <;> rfl

theorem newer_assoc (a b c : Option α) :
    newer rank (newer rank a b) c = newer rank a (newer rank b c) := by
  cases a with
  | none => rfl
  | some x =>
    cases b with
    | none => rfl
    | some y =>
      cases c with
      | none => rw [newer_none, newer_none]
      | some z => grind [newer]

/-- A read of two lists compares the answers of both. -/
theorem latest_append (l₁ l₂ : List α) :
    latest rank s (l₁ ++ l₂) = newer rank (latest rank s l₁) (latest rank s l₂) := by
  induction l₁ with
  | nil => rfl
  | cons v l₁ ih =>
    show newer rank _ (latest rank s (l₁ ++ l₂)) = _
    rw [ih, ← newer_assoc]
    rfl

theorem latest_concat (l : List α) (v : α) :
    latest rank s (l ++ [v]) =
      newer rank (latest rank s l) (if rank v ≤ s then some v else none) := by
  rw [latest_append, latest_cons, show latest rank s ([] : List α) = none from rfl, newer_none]

/-- When the second list is newer, it decides if it has an answer. -/
theorem latest_append_of_lt (h : ∀ u ∈ l₁, ∀ v ∈ l₂, rank u < rank v) :
    latest rank s (l₁ ++ l₂) = (latest rank s l₂).or (latest rank s l₁) := by
  rw [latest_append]
  cases hv : latest rank s l₂ with
  | none => rw [newer_none, Option.none_or]
  | some v =>
    cases hu : latest rank s l₁ with
    | none => rfl
    | some u =>
      have hmem₁ := isLatest_latest rank s l₁
      have hmem₂ := isLatest_latest rank s l₂
      rw [hu] at hmem₁
      rw [hv] at hmem₂
      exact if_pos (h u hmem₁.1 v hmem₂.1)

theorem IsLatest.eq_latest_of_inj (hinj : ∀ v ∈ l, ∀ w ∈ l, rank v = rank w → v = w)
    (h : IsLatest rank s l o) : o = latest rank s l :=
  h.unique_of_inj hinj (isLatest_latest rank s l)

theorem IsLatest.eq_latest (hnd : (l.map rank).Nodup) (h : IsLatest rank s l o) :
    o = latest rank s l :=
  h.unique hnd (isLatest_latest rank s l)

theorem IsLatest.congr (hmem : ∀ v, v ∈ l₁ ↔ v ∈ l₂) (h : IsLatest rank s l₁ o) :
    IsLatest rank s l₂ o := by
  cases o with
  | none => exact fun w hw => h w ((hmem w).mpr hw)
  | some v => exact ⟨(hmem v).mp h.1, h.2.1, fun w hw => h.2.2 w ((hmem w).mpr hw)⟩

theorem latest_perm (hnd : (l₁.map rank).Nodup) (h : l₁.Perm l₂) :
    latest rank s l₁ = latest rank s l₂ := by
  have h₂ : IsLatest rank s l₁ (latest rank s l₂) :=
    (isLatest_latest rank s l₂).congr fun v => (h.mem_iff).symm
  exact (isLatest_latest rank s l₁).unique hnd h₂

/-- A part of the list that contains the answer has the same answer. -/
theorem IsLatest.of_subset {v : α} (h : IsLatest rank s l₁ (some v)) (hsub : l₂ ⊆ l₁)
    (hv : v ∈ l₂) : IsLatest rank s l₂ (some v) :=
  ⟨hv, h.2.1, fun w hw => h.2.2 w (hsub hw)⟩

theorem IsLatest.none_of_subset (h : IsLatest rank s l₁ none) (hsub : l₂ ⊆ l₁) :
    IsLatest rank s l₂ none :=
  fun w hw => h w (hsub hw)

theorem IsLatest.of_none_part (h₁ : IsLatest rank s l₁ none) (h₂ : IsLatest rank s l₂ o) :
    IsLatest rank s (l₁ ++ l₂) o := by
  have := h₁.append h₂
  cases o <;> exact this

/-- Two reads with no element written between them agree. -/
theorem IsLatest.of_no_rank_between (h : IsLatest rank s l o)
    (hbetween : ∀ w ∈ l, rank w ≤ s ↔ rank w ≤ t) : IsLatest rank t l o := by
  cases o with
  | none =>
    intro w hw
    have := h w hw
    have := hbetween w hw
    omega
  | some v =>
    refine ⟨h.1, (hbetween v h.1).mp h.2.1, ?_⟩
    intro w hw hwt
    exact h.2.2 w hw ((hbetween w hw).mpr hwt)

theorem latest_congr_of_no_rank_between (hnd : (l.map rank).Nodup)
    (hbetween : ∀ w ∈ l, rank w ≤ s ↔ rank w ≤ t) : latest rank s l = latest rank t l :=
  ((isLatest_latest rank s l).of_no_rank_between hbetween).eq_latest hnd

end Latest

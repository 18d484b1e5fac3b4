import Mathlib

/-!
The first element of a kind in a stably sorted list.

Sorting code that goes on to look only at the first element with a property does
not depend on the whole order: that element is the best one among those that
have the property, the earlier of two equally good ones.
-/

namespace Stable

open List

variable {α : Type*} (r : α → α → Prop) [DecidableRel r]

/-- The best element of a list; of two equally good ones the earlier. -/
def best : List α → Option α
  | [] => none
  | a :: rest =>
    match best rest with
    | none => some a
    | some b => if r a b then some a else some b

variable {r}

theorem best_mem {l : List α} {a : α} (h : best r l = some a) : a ∈ l := by
  induction l generalizing a with
  | nil => simp [best] at h
  | cons b rest ih =>
    rw [best] at h
    cases hrest : best r rest with
    | none =>
      simp only [hrest, Option.some.injEq] at h
      exact h ▸ mem_cons_self ..
    | some c =>
      simp only [hrest] at h
      split at h
      · exact Option.some.inj h ▸ mem_cons_self ..
      · exact mem_cons_of_mem _ (ih (hrest.trans h))

theorem best_eq_none_iff {l : List α} : best r l = none ↔ l = [] := by
  cases l with
  | nil => simp [best]
  | cons a rest =>
    rw [best]
    cases best r rest with
    | none => simp
    | some b => by_cases hab : r a b <;> simp [hab]

theorem best_le [IsTrans α r] [Std.Total r] {l : List α} {a : α} (h : best r l = some a) :
    ∀ b ∈ l, r a b := by
  have hrefl (a : α) : r a a := (Std.Total.total a a).elim id id
  induction l generalizing a with
  | nil => simp [best] at h
  | cons b rest ih =>
    rw [best] at h
    cases hrest : best r rest with
    | none =>
      simp only [hrest, Option.some.injEq] at h
      simpa [best_eq_none_iff.mp hrest, h] using hrefl a
    | some c =>
      simp only [hrest] at h
      split at h
      · next hbc =>
          obtain rfl := Option.some.inj h
          exact forall_mem_cons.mpr
            ⟨hrefl b, fun d hd => IsTrans.trans _ _ _ hbc (ih hrest d hd)⟩
      · next hbc =>
          obtain rfl := Option.some.inj h
          have hcb : r c b := (Std.Total.total b c).resolve_left hbc
          exact forall_mem_cons.mpr ⟨hcb, ih hrest⟩

variable {p : α → Bool}

theorem find?_orderedInsert_of_not {a : α} (ha : p a = false) (l : List α) :
    (l.orderedInsert r a).find? p = l.find? p := by
  induction l with
  | nil => simp [ha]
  | cons b rest ih =>
    rw [orderedInsert_cons]
    split
    · rw [find?_cons_of_neg (by simp [ha])]
    · rw [find?_cons, find?_cons, ih]

/-- Insertion into a sorted list: the new element comes before the first one with
the property exactly when it is at least as good. -/
theorem find?_orderedInsert [IsTrans α r] {a : α} (ha : p a = true) {l : List α}
    (hl : l.Pairwise r) :
    (l.orderedInsert r a).find? p =
      match l.find? p with
      | none => some a
      | some b => if r a b then some a else some b := by
  induction l with
  | nil => simp [ha]
  | cons b rest ih =>
    rw [pairwise_cons] at hl
    rw [orderedInsert_cons]
    split
    · rename_i hab
      rw [find?_cons_of_pos ha]
      cases hfind : (b :: rest).find? p with
      | none => rfl
      | some c =>
        have hac : r a c := by
          rcases mem_cons.mp (mem_of_find?_eq_some hfind) with rfl | hc
          · exact hab
          · exact IsTrans.trans a b c hab (hl.1 c hc)
        simp [hac]
    · rename_i hab
      rw [find?_cons, find?_cons]
      cases hb : p b with
      | true => simp [hab]
      | false => simpa using ih hl.2

/-- The first element with a property after a stable sort. -/
theorem find?_insertionSort [IsTrans α r] [Std.Total r] (l : List α) :
    (l.insertionSort r).find? p = best r (l.filter p) := by
  induction l with
  | nil => rfl
  | cons a rest ih =>
    rw [insertionSort_cons]
    cases ha : p a with
    | false => rw [find?_orderedInsert_of_not ha, ih, filter_cons_of_neg (by simp [ha])]
    | true =>
      rw [find?_orderedInsert ha (pairwise_insertionSort r rest), ih, filter_cons_of_pos ha, best]

end Stable

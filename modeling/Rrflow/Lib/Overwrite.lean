import Rrflow.Lib.SortedMap

/-!
Tables that are written in the order of a log.

An entry of the log is stored under its key, so the table holds the last entry of each
key. What is read back for an earlier entry is then `current`, and it is that entry
exactly if no later one with its key differs from it.
-/

namespace Rrflow.Overwrite

open List SortedMap

variable {α κ : Type} [LinearOrder κ] (key : α → κ)

def last (log : List α) (k : κ) : Option α := (log.filter fun a => key a = k).getLast?

def table (log : List α) : SortedMap κ α := log.foldl (fun m a => m.insert (key a) a) .empty

def current (log : List α) (a : α) : α := (last key log (key a)).getD a

variable {key} {log : List α} {a : α} {k : κ}

@[simp] theorem last_nil (k : κ) : last key [] k = none := rfl

theorem last_append (log more : List α) (k : κ) :
    last key (log ++ more) k = (last key more k).or (last key log k) := by
  rw [last, filter_append, getLast?_append, last, last]

theorem last_concat (log : List α) (a : α) (k : κ) :
    last key (log ++ [a]) k = if key a = k then some a else last key log k := by
  rw [last_append]
  by_cases h : key a = k
  · simp [last, h]
  · simp [last, h]

theorem mem_of_last (h : last key log k = some a) : a ∈ log ∧ key a = k := by
  have hmem := mem_of_getLast? h
  simpa using hmem

theorem last_eq_none_iff : last key log k = none ↔ ∀ a ∈ log, key a ≠ k := by
  simp [last]

theorem exists_last (key : α → κ) (h : a ∈ log) : ∃ b, last key log (key a) = some b := by
  refine Option.ne_none_iff_exists'.mp fun hnone => ?_
  exact last_eq_none_iff.mp hnone a h rfl

theorem find?_table (log : List α) (k : κ) : (table key log).find? k = last key log k := by
  induction log using List.reverseRecOn with
  | nil => rfl
  | append_singleton log a ih =>
    rw [table, foldl_concat, find?_insert, last_concat, ← table, ih]
    simp only [eq_comm]

/-- The values of a map that is ordered by their keys make up the map. -/
theorem table_values {m : SortedMap κ α} (h : ∀ k a, m.find? k = some a → key a = k) :
    table key m.values = m := by
  have hmem : ∀ {a}, a ∈ m.values → m.find? (key a) = some a := by
    intro a ha
    obtain ⟨entry, hentry, rfl⟩ := mem_map.mp ha
    have hfind := mem_toList_iff.mp hentry
    rwa [h _ _ hfind]
  refine ext_find? fun k => ?_
  rw [find?_table]
  cases hfind : m.find? k with
  | none =>
    refine last_eq_none_iff.mpr fun a ha hk => ?_
    rw [← hk, hmem ha] at hfind
    cases hfind
  | some a =>
    have hvalue : a ∈ m.values := mem_map.mpr ⟨_, mem_toList_iff.mpr hfind, rfl⟩
    obtain ⟨b, hb⟩ := exists_last key hvalue
    obtain ⟨hvalue', hkey⟩ := mem_of_last hb
    have hsame := hmem hvalue'
    rw [hkey, hmem hvalue] at hsame
    rw [← h k a hfind, hb, hsame]

theorem table_append (log more : List α) :
    table key (log ++ more) = more.foldl (fun m a => m.insert (key a) a) (table key log) :=
  foldl_append ..

theorem last_of_mem (key : α → κ) (h : a ∈ log) :
    last key log (key a) = some (current key log a) := by
  obtain ⟨b, hb⟩ := exists_last key h
  rw [current, hb]
  rfl

theorem key_current (log : List α) (a : α) : key (current key log a) = key a := by
  cases hlast : last key log (key a) with
  | none => rw [current, hlast, Option.getD_none]
  | some b =>
    rw [current, hlast]
    exact (mem_of_last hlast).2

theorem current_congr {b : α} (ha : a ∈ log) (h : key a = key b) :
    current key log a = current key log b := by
  obtain ⟨c, hc⟩ := exists_last key ha
  rw [current, hc, current, ← h, hc]
  rfl

/-- Everything is read back as it was written if entries with one key are equal. -/
theorem forall_current_eq_iff :
    (∀ a ∈ log, current key log a = a) ↔ log.Pairwise fun a b => key a = key b → a = b := by
  constructor
  · intro h
    refine pairwise_iff_getElem.mpr fun i j hi hj hij hkey => ?_
    rw [← h _ (getElem_mem hi), ← h _ (getElem_mem hj)]
    exact current_congr (getElem_mem hi) hkey
  · intro h a ha
    have : Std.Symm fun a b : α => key a = key b → a = b :=
      ⟨fun _ _ hab hkey => (hab hkey.symm).symm⟩
    have hall := h.forall_of_forall fun _ _ _ => rfl
    have hlast := mem_of_last (last_of_mem key ha)
    exact hall hlast.1 ha hlast.2

end Rrflow.Overwrite

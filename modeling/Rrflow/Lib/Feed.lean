import Mathlib

/-!
Reading a log in windows.

The entries of a log are numbered from one. A window is what lies after one number and up
to another; windows that follow on each other cover what lies between the first start and
the last stop, every entry once and in order, and a longer log has the same windows.
-/

namespace Feed

open List

variable {α : Type*} {log more : List α} {start middle stop : Nat}

/-- The entries after `start`, up to `stop`. -/
def window (log : List α) (start stop : Nat) : List α := (log.take stop).drop start

@[simp] theorem window_self (log : List α) (start : Nat) : window log start start = [] := by
  rw [window, drop_eq_nil_iff, List.length_take]
  exact Nat.min_le_left ..

@[simp] theorem window_zero (log : List α) (stop : Nat) : window log 0 stop = log.take stop := rfl

theorem window_append_window (log : List α) (hstart : start ≤ middle) (hstop : middle ≤ stop) :
    window log start middle ++ window log middle stop = window log start stop := by
  have hdrop : log.drop middle = (log.drop start).drop (middle - start) := by
    rw [drop_drop, Nat.add_sub_cancel' hstart]
  have hlength : stop - start = middle - start + (stop - middle) := by omega
  rw [window, window, window, drop_take, drop_take, drop_take, hdrop, hlength, take_add]

theorem window_succ {entry : α} (hstart : start ≤ stop) (hentry : log[stop]? = some entry) :
    window log start (stop + 1) = window log start stop ++ [entry] := by
  obtain ⟨hlt, hget⟩ := List.getElem?_eq_some_iff.mp hentry
  have hshort : start ≤ (log.take stop).length := by
    rw [List.length_take]
    omega
  rw [window, take_succ_eq_append_getElem hlt, hget, drop_append_of_le_length hshort, window]

theorem window_append_log (hstop : stop ≤ log.length) :
    window (log ++ more) start stop = window log start stop := by
  rw [window, take_append_of_le_length hstop, window]

/-- Intervals that follow on each other, none of them empty. -/
def Linked {ι : Type*} (from_ through : ι → Nat) : Nat → List ι → Nat → Prop
  | start, [], stop => start = stop
  | start, first :: rest, stop =>
    from_ first = start ∧ start < through first ∧ Linked from_ through (through first) rest stop

section Linked

variable {ι : Type*} {from_ through : ι → Nat} {items rest : List ι} {item : ι}

theorem Linked.le (h : Linked from_ through start items stop) : start ≤ stop := by
  induction items generalizing start with
  | nil => exact h.le
  | cons first rest ih => exact h.2.1.le.trans (ih h.2.2)

theorem linked_append :
    Linked from_ through start (items ++ rest) stop ↔
      ∃ middle, Linked from_ through start items middle ∧
        Linked from_ through middle rest stop := by
  induction items generalizing start with
  | nil =>
    constructor
    · exact fun h => ⟨start, rfl, h⟩
    · rintro ⟨_, rfl, h⟩
      exact h
  | cons first items ih =>
    rw [cons_append, Linked, ih]
    constructor
    · rintro ⟨hfrom, hlt, middle, hitems, hrest⟩
      exact ⟨middle, ⟨hfrom, hlt, hitems⟩, hrest⟩
    · rintro ⟨middle, ⟨hfrom, hlt, hitems⟩, hrest⟩
      exact ⟨hfrom, hlt, middle, hitems, hrest⟩

theorem Linked.concat (h : Linked from_ through start items (from_ item))
    (hlt : from_ item < through item) :
    Linked from_ through start (items ++ [item]) (through item) :=
  linked_append.mpr ⟨_, h, rfl, hlt, rfl⟩

theorem Linked.stop_eq (h : Linked from_ through start items stop) :
    stop = (items.getLast?.map through).getD start := by
  rcases items.eq_nil_or_concat with rfl | ⟨init, last, rfl⟩
  · exact Eq.symm h
  · rw [concat_eq_append] at h ⊢
    obtain ⟨_, -, -, -, hstop⟩ := linked_append.mp h
    rw [getLast?_concat]
    exact hstop.symm

theorem linked_map {κ : Type*} {f : κ → ι} {items : List κ} :
    Linked from_ through start (items.map f) stop ↔
      Linked (from_ ∘ f) (through ∘ f) start items stop := by
  induction items generalizing start with
  | nil => exact Iff.rfl
  | cons first rest ih =>
    rw [map_cons, Linked, Linked, ih]
    rfl

/-- What linked windows show, when each one selects entries and gives them in another form. -/
theorem Linked.mapM_window {β ε : Type*} (h : Linked from_ through start items stop)
    {log : List α} {p : α → Bool} {f : α → Except ε β} {shown : ι → List β}
    (hshown : ∀ item ∈ items,
      ((window log (from_ item) (through item)).filter p).mapM f = .ok (shown item)) :
    ((window log start stop).filter p).mapM f = .ok (items.flatMap shown) := by
  induction items generalizing start with
  | nil =>
    obtain rfl : start = stop := h
    rw [window_self]
    rfl
  | cons first rest ih =>
    rw [forall_mem_cons] at hshown
    obtain ⟨rfl, hlt, hrest⟩ := h
    rw [← window_append_window log hlt.le hrest.le, filter_append, mapM_append,
      hshown.1, ih hrest hshown.2, flatMap_cons]
    rfl

end Linked

end Feed

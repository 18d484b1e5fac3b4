import Mathlib

/-!
Validation code: sequences of checks that stop at the first error.

A check is a computation in `Except` whose result is not used. The lemmas say
what a passed sequence of checks means for each of them.
-/

namespace Checks

open List

variable {ε α β : Type}

instance decidableEqOk (x : Except ε Unit) : Decidable (x = .ok ()) :=
  match x with
  | .ok () => isTrue rfl
  | .error _ => isFalse (by simp)

/-- A check that fails with `e` unless `c` holds. -/
def ensure (c : Prop) [Decidable c] (e : ε) : Except ε Unit := if c then .ok () else .error e

@[simp] theorem ensure_eq_ok {c : Prop} [Decidable c] {e : ε} {u : Unit} :
    ensure c e = .ok u ↔ c := by
  unfold ensure
  split <;> simp_all

variable {x : Except ε α}

theorem bind_eq_ok {f : α → Except ε β} {b : β} :
    (x >>= f) = .ok b ↔ ∃ a, x = .ok a ∧ f a = .ok b := by
  cases x with
  | error e => simp [bind, Except.bind]
  | ok a => simp [bind, Except.bind]

theorem ok_bind (a : α) (f : α → Except ε β) : (Except.ok a >>= f) = f a := rfl

theorem unless_eq_ok {c : Prop} [Decidable c] {e : ε} {f : Unit → Except ε α} {a : α} :
    (if c then Except.error e >>= f else f ()) = .ok a ↔ ¬c ∧ f () = .ok a := by
  by_cases hc : c
  · simp [hc, bind, Except.bind]
  · simp [hc]

theorem eq_ok_of_toOption {a : α} (h : x.toOption = some a) : x = .ok a := by
  cases x with
  | error error => cases h
  | ok b => exact congrArg Except.ok (Option.some.inj h)

theorem exists_ok_of_any {p : α → Bool} (h : x.toOption.any p = true) :
    ∃ a, x = .ok a ∧ p a = true := by
  cases x with
  | error e => cases h
  | ok a => exact ⟨a, rfl, h⟩

/-- A loop of checks passes when each of them does. -/
theorem forM_eq_ok {l : List α} {f : α → Except ε Unit} {u : Unit} :
    l.forM f = .ok u ↔ ∀ a ∈ l, f a = .ok () := by
  induction l with
  | nil => simp [List.forM, pure, Except.pure]
  | cons a rest ih =>
    show (f a >>= fun _ => rest.forM f) = .ok u ↔ _
    rw [bind_eq_ok]
    constructor
    · rintro ⟨_, hfirst, hrest⟩ b hb
      rcases mem_cons.mp hb with rfl | hb
      · exact hfirst
      · exact ih.mp hrest b hb
    · intro h
      exact ⟨(), h a (mem_cons_self ..), ih.mpr fun b hb => h b (mem_cons_of_mem _ hb)⟩

variable {σ : Type} {f : σ → α → Except ε σ}

theorem exists_of_foldlM_eq_ok {l : List α} {s s' : σ} (h : l.foldlM f s = .ok s') {a : α}
    (hmem : a ∈ l) : ∃ t t', f t a = .ok t' := by
  induction l generalizing s with
  | nil => cases hmem
  | cons b rest ih =>
    rw [foldlM_cons, bind_eq_ok] at h
    obtain ⟨middle, hfirst, hrest⟩ := h
    rcases mem_cons.mp hmem with rfl | hmem
    · exact ⟨s, middle, hfirst⟩
    · exact ih hrest hmem

theorem foldlM_invariant {P : σ → Prop} {l : List α} {s s' : σ} (h : l.foldlM f s = .ok s')
    (hinit : P s) (hstep : ∀ s, ∀ a ∈ l, ∀ s', f s a = .ok s' → P s → P s') : P s' := by
  induction l generalizing s with
  | nil => exact Except.ok.inj h ▸ hinit
  | cons a rest ih =>
    rw [foldlM_cons, bind_eq_ok] at h
    obtain ⟨middle, hfirst, hrest⟩ := h
    exact ih hrest (hstep s a (mem_cons_self ..) middle hfirst hinit)
      fun s b hb => hstep s b (mem_cons_of_mem _ hb)

theorem exists_foldlM_eq_ok {l : List α} (h : ∀ a ∈ l, ∀ s, ∃ s', f s a = .ok s') (s : σ) :
    ∃ s', l.foldlM f s = .ok s' := by
  induction l generalizing s with
  | nil => exact ⟨s, rfl⟩
  | cons a rest ih =>
    obtain ⟨middle, hfirst⟩ := h a (mem_cons_self ..) s
    obtain ⟨s', hrest⟩ := ih (fun b hb => h b (mem_cons_of_mem _ hb)) middle
    exact ⟨s', by rw [foldlM_cons, hfirst]; exact hrest⟩

/-- A fold whose steps each check something about their element alone. -/
theorem foldlM_eq_ok {g : σ → α → σ} {P : α → Prop}
    (hf : ∀ s a s', f s a = .ok s' ↔ P a ∧ s' = g s a) {l : List α} {s s' : σ} :
    l.foldlM f s = .ok s' ↔ (∀ a ∈ l, P a) ∧ s' = l.foldl g s := by
  induction l generalizing s with
  | nil => simpa [pure, Except.pure] using eq_comm
  | cons a rest ih =>
    rw [foldlM_cons, bind_eq_ok, foldl_cons, forall_mem_cons]
    constructor
    · rintro ⟨middle, hfirst, hrest⟩
      obtain ⟨hpass, rfl⟩ := (hf s a middle).mp hfirst
      obtain ⟨hall, rfl⟩ := ih.mp hrest
      exact ⟨⟨hpass, hall⟩, rfl⟩
    · rintro ⟨⟨hpass, hall⟩, rfl⟩
      exact ⟨g s a, (hf s a _).mpr ⟨hpass, rfl⟩, ih.mpr ⟨hall, rfl⟩⟩

/-- Every error with which a computation ends is in `P`. -/
def Errs (P : ε → Prop) (x : Except ε α) : Prop := ∀ e, x = .error e → P e

section Errs

variable {P : ε → Prop}

theorem errs_ok (a : α) : Errs P (.ok a : Except ε α) := by
  intro e h
  cases h

theorem errs_error {e : ε} (h : P e) : Errs P (.error e : Except ε α) := by
  intro e' heq
  cases heq
  exact h

theorem Errs.bind {x : Except ε α} {f : α → Except ε β} (hx : Errs P x)
    (hf : ∀ a, Errs P (f a)) : Errs P (x >>= f) := by
  cases x with
  | error e => exact errs_error (hx e rfl)
  | ok a => exact hf a

theorem Errs.ite {c : Prop} [Decidable c] {x y : Except ε α} (hx : Errs P x) (hy : Errs P y) :
    Errs P (if c then x else y) := by
  split
  · exact hx
  · exact hy

theorem Errs.unless {c : Prop} [Decidable c] {e : ε} {f : Unit → Except ε α} (he : P e)
    (hf : Errs P (f ())) : Errs P (if c then Except.error e >>= f else f ()) :=
  Errs.ite (errs_error he) hf

theorem Errs.foldlM {σ : Type} {f : σ → α → Except ε σ} (hf : ∀ s a, Errs P (f s a)) (s : σ)
    (l : List α) : Errs P (l.foldlM f s) := by
  induction l generalizing s with
  | nil => exact errs_ok s
  | cons a rest ih =>
    rw [foldlM_cons]
    exact (hf s a).bind fun s' => ih s'

end Errs

end Checks

import Mathlib

/-!
Computations with a state and errors, where an error keeps the state reached so
far.

`Eff σ ε α` is a function from a state to an outcome and a state. A failing
computation does not roll back: what it did before it failed stays done, as in a
method on a mutable object that returns early, or in what a crash leaves behind.

The calculus is weakest preconditions. `wp x Q E s` says that `x`, started in
`s`, either returns some `a` in a state satisfying `Q a`, or fails in a state
satisfying `E`. Every construct has an equation, a callee is used through
`wp_seq` or `wp_mono`, and a loop over a list through `wp_foldlM`.

`Preserves R x` says that the states before and after `x` are related by `R` whatever
the outcome; for a reflexive and transitive `R` this is closed under every construct.
`Raises P x` says that the errors of `x` are in `P`, from whatever state.
-/

/-- A computation over the state `σ` that returns an `α` or fails with an
`ε`. -/
def Eff (σ ε α : Type) := σ → Except ε α × σ

namespace Eff

variable {σ ε α β γ : Type}

/-- Sequencing: an error ends the computation in the state it occurred in. -/
protected def bind (x : Eff σ ε α) (f : α → Eff σ ε β) : Eff σ ε β := fun s =>
  match x s with
  | (.ok a, s') => f a s'
  | (.error e, s') => (.error e, s')

instance : Monad (Eff σ ε) where
  pure a := fun s => (.ok a, s)
  bind := Eff.bind

instance : LawfulMonad (Eff σ ε) :=
  LawfulMonad.mk' _ (fun x => funext fun s => by
      show Eff.bind x _ s = x s
      unfold Eff.bind
      rcases x s with ⟨_ | _, _⟩ <;> rfl)
    (fun _ _ => rfl) fun x _ _ => funext fun s => by
      show Eff.bind (Eff.bind x _) _ s = Eff.bind x _ s
      unfold Eff.bind
      rcases x s with ⟨_ | _, _⟩ <;> rfl

def fail (e : ε) : Eff σ ε α := fun s => (.error e, s)

def get : Eff σ ε σ := fun s => (.ok s, s)

def modify (f : σ → σ) : Eff σ ε Unit := fun s => (.ok (), f s)

/-- The outcome of a computation that does not touch the state. -/
def ofExcept (x : Except ε α) : Eff σ ε α := fun s => (x, s)

/-- Recovery from the errors for which `handler` has a continuation. -/
def recover (x : Eff σ ε α) (handler : ε → Option α) : Eff σ ε α := fun s =>
  match x s with
  | (.ok a, s') => (.ok a, s')
  | (.error e, s') =>
    match handler e with
    | some a => (.ok a, s')
    | none => (.error e, s')

/-- A fold over a list that stops at the first error. -/
def foldlM (f : α → γ → Eff σ ε α) : α → List γ → Eff σ ε α
  | a, [] => pure a
  | a, c :: rest => f a c >>= fun a' => foldlM f a' rest

/-- `x`, started in `s`, returns in `Q` or fails in `E`. -/
def wp (x : Eff σ ε α) (Q : α → σ → Prop) (E : ε → σ → Prop) (s : σ) : Prop :=
  match x s with
  | (.ok a, s') => Q a s'
  | (.error e, s') => E e s'

variable {Q Q' : α → σ → Prop} {E E' : ε → σ → Prop} {s : σ}

@[simp] theorem wp_pure (a : α) : wp (pure a : Eff σ ε α) Q E s = Q a s := rfl

@[simp] theorem wp_fail (e : ε) : wp (fail e : Eff σ ε α) Q E s = E e s := rfl

@[simp] theorem wp_get {Q : σ → σ → Prop} : wp (get : Eff σ ε σ) Q E s = Q s s := rfl

@[simp] theorem wp_modify {Q : Unit → σ → Prop} (f : σ → σ) :
    wp (modify f : Eff σ ε Unit) Q E s = Q () (f s) := rfl

@[simp] theorem wp_bind (x : Eff σ ε α) (f : α → Eff σ ε β) {Q : β → σ → Prop} :
    wp (x >>= f) Q E s = wp x (fun a => wp (f a) Q E) E s := by
  show wp (Eff.bind x f) Q E s = _
  simp only [wp, Eff.bind]
  rcases x s with ⟨r, s'⟩
  cases r <;> rfl

@[simp] theorem wp_ite (c : Prop) [Decidable c] (x y : Eff σ ε α) :
    wp (if c then x else y) Q E s = if c then wp x Q E s else wp y Q E s := by
  split <;> rfl

theorem wp_cond {c : Prop} [Decidable c] {x y : Eff σ ε α} (hx : c → wp x Q E s)
    (hy : ¬c → wp y Q E s) : wp (if c then x else y) Q E s := by
  split
  · exact hx ‹_›
  · exact hy ‹_›

variable {x : Eff σ ε α}

theorem wp_mono (h : wp x Q E s) (hQ : ∀ a s', Q a s' → Q' a s') (hE : ∀ e s', E e s' → E' e s') :
    wp x Q' E' s := by
  simp only [wp] at h ⊢
  rcases hx : x s with ⟨r, s'⟩
  rw [hx] at h
  cases r with
  | ok a => exact hQ a s' h
  | error e => exact hE e s' h

variable {f : α → Eff σ ε β}

theorem wp_seq {Q' : β → σ → Prop} (h : wp x Q E s) (hf : ∀ a s', Q a s' → wp (f a) Q' E s') :
    wp (x >>= f) Q' E s := by
  rw [wp_bind]
  exact wp_mono h hf fun _ _ h => h

theorem wp_then {Q' : β → σ → Prop} (h : wp x Q E s) (hf : ∀ a s', Q a s' → wp (f a) Q' E' s')
    (hE : ∀ e s', E e s' → E' e s') : wp (x >>= f) Q' E' s := by
  rw [wp_bind]
  exact wp_mono h hf hE

/-- Two things are known of one computation. -/
theorem wp_and (h : wp x Q E s) (h' : wp x Q' E' s) :
    wp x (fun a s' => Q a s' ∧ Q' a s') (fun e s' => E e s' ∧ E' e s') s := by
  simp only [wp] at h h' ⊢
  rcases hx : x s with ⟨r, s'⟩
  rw [hx] at h h'
  cases r <;> exact ⟨h, h'⟩

/-- An outcome computed without the state satisfies what every successful and
every failed outcome satisfies. -/
theorem wp_ofExcept {x : Except ε α} (hQ : ∀ a, x = .ok a → Q a s)
    (hE : ∀ e, x = .error e → E e s) : wp (ofExcept x) Q E s := by
  cases x with
  | ok a => exact hQ a rfl
  | error e => exact hE e rfl

theorem wp_recover {handler : ε → Option α}
    (h : wp x Q (fun e s' => match handler e with | some a => Q a s' | none => E e s') s) :
    wp (recover x handler) Q E s := by
  simp only [wp, recover] at h ⊢
  rcases hx : x s with ⟨r, s'⟩
  rw [hx] at h
  cases r with
  | ok a => exact h
  | error e =>
    simp only at h ⊢
    cases hh : handler e with
    | some a => rw [hh] at h; exact h
    | none => rw [hh] at h; exact h

theorem wp_ofExcept_bind {x : Except ε α} {Q : β → σ → Prop} (hE : ∀ e, x = .error e → E e s)
    (hf : ∀ a, x = .ok a → wp (f a) Q E s) : wp (ofExcept x >>= f) Q E s := by
  rw [wp_bind]
  exact wp_ofExcept hf hE

/-- The loop rule: an invariant over the part of the list already visited. -/
theorem wp_foldlM {f : α → γ → Eff σ ε α} (I : List γ → α → σ → Prop)
    {l : List γ} {a : α} (hinit : I [] a s)
    (hstep : ∀ seen c rest a' s', l = seen ++ c :: rest → I seen a' s' →
      wp (f a' c) (I (seen ++ [c])) E s') :
    wp (foldlM f a l) (I l) E s := by
  suffices h : ∀ (rest seen : List γ) (a' : α) (s' : σ), l = seen ++ rest → I seen a' s' →
      wp (foldlM f a' rest) (I l) E s' from h l [] a s rfl hinit
  intro rest
  induction rest with
  | nil =>
    intro seen a' s' hl hI
    rw [List.append_nil] at hl
    subst hl
    exact hI
  | cons c rest ih =>
    intro seen a' s' hl hI
    refine wp_seq (hstep seen c rest a' s' hl hI) fun a'' s'' hI' => ?_
    exact ih (seen ++ [c]) a'' s'' (by rw [hl, List.append_assoc]; rfl) hI'

/-- Reading a result back from its weakest precondition. -/
theorem wp_eq {r : Except ε α} {s' : σ} (h : wp x Q E s) (hx : x s = (r, s')) :
    match r with
    | .ok a => Q a s'
    | .error e => E e s' := by
  simp only [wp, hx] at h
  cases r <;> exact h

/-! ### Relations kept by every outcome -/

/-- Whatever the outcome of `x`, the states before and after it are related. -/
def Preserves (R : σ → σ → Prop) (x : Eff σ ε α) : Prop :=
  ∀ s, wp x (fun _ => R s) (fun _ => R s) s

section Preserves

variable {R : σ → σ → Prop}

theorem Preserves.mono {R' : σ → σ → Prop} (h : Preserves R x) (hR : ∀ s s', R s s' → R' s s') :
    Preserves R' x :=
  fun s => wp_mono (h s) (fun _ s' => hR s s') (fun _ s' => hR s s')

theorem wp_trivial (x : Eff σ ε α) : wp x (fun _ _ => True) (fun _ _ => True) s := by
  unfold Eff.wp
  split <;> trivial

/-- A relation that is only claimed from states with a property. -/
theorem Preserves.of_assuming {A : σ → Prop}
    (h : ∀ s, A s → Eff.wp x (fun _ => R s) (fun _ => R s) s) :
    Preserves (fun s s' => A s → R s s') x := by
  intro s
  by_cases hA : A s
  · exact wp_mono (h s hA) (fun _ _ hR _ => hR) (fun _ _ hR _ => hR)
  · exact wp_mono (wp_trivial x) (fun _ _ _ hA' => absurd hA' hA) (fun _ _ _ hA' => absurd hA' hA)

theorem preserves_pure [Std.Refl R] (a : α) : Preserves R (pure a : Eff σ ε α) :=
  fun s => Std.Refl.refl s

theorem preserves_fail [Std.Refl R] (e : ε) : Preserves R (fail e : Eff σ ε α) :=
  fun s => Std.Refl.refl s

theorem preserves_get [Std.Refl R] : Preserves R (get : Eff σ ε σ) :=
  fun s => Std.Refl.refl s

theorem preserves_ofExcept [Std.Refl R] (x : Except ε α) : Preserves R (ofExcept x : Eff σ ε α) :=
  fun s => wp_ofExcept (fun _ _ => Std.Refl.refl s) (fun _ _ => Std.Refl.refl s)

theorem Preserves.bind [IsTrans σ R] {x : Eff σ ε α} {f : α → Eff σ ε β} (hx : Preserves R x)
    (hf : ∀ a, Preserves R (f a)) : Preserves R (x >>= f) := by
  refine fun s => wp_seq (hx s) fun a s' h => ?_
  exact wp_mono (hf a s') (fun _ s'' h' => IsTrans.trans _ _ _ h h')
    (fun _ s'' h' => IsTrans.trans _ _ _ h h')

theorem Preserves.ite {c : Prop} [Decidable c] {x y : Eff σ ε α} (hx : Preserves R x)
    (hy : Preserves R y) : Preserves R (if c then x else y) := by
  split
  · exact hx
  · exact hy

theorem Preserves.foldlM [Std.Refl R] [IsTrans σ R] {f : α → γ → Eff σ ε α}
    (hf : ∀ a c, Preserves R (f a c)) (a : α) (l : List γ) : Preserves R (foldlM f a l) := by
  induction l generalizing a with
  | nil => exact preserves_pure a
  | cons c rest ih => exact (hf a c).bind fun a' => ih a'

theorem Preserves.recover (hx : Preserves R x) (handler : ε → Option α) :
    Preserves R (recover x handler) := by
  intro s
  refine wp_recover (wp_mono (hx s) (fun _ _ h => h) ?_)
  intro e s' h
  cases handler e <;> exact h

/-- A callee of which only the kept relation is known. -/
theorem Preserves.wp (hx : Preserves R x) (hQ : ∀ a s', R s s' → Q a s')
    (hE : ∀ e s', R s s' → E e s') : wp x Q E s :=
  wp_mono (hx s) hQ hE

theorem Preserves.seq {Q : β → σ → Prop} (hx : Preserves R x) (hE : ∀ e s', R s s' → E e s')
    (hf : ∀ a s', R s s' → Eff.wp (f a) Q E s') : Eff.wp (x >>= f) Q E s := by
  rw [wp_bind]
  exact hx.wp hf hE

section Steps

variable [IsTrans σ R] {x : Eff σ ε α} {f : α → Eff σ ε β} {P : α → σ → Prop} {Q : β → σ → Prop}
  {s₀ : σ}

/-- A callee in the middle of a computation that has kept the relation since `s₀`. -/
theorem wp_step_of (hs : R s₀ s) (hx : Eff.wp x (fun a s' => R s s' ∧ P a s') (fun _ => R s) s)
    (hE : ∀ e s', R s₀ s' → E e s') (hf : ∀ a s', R s₀ s' → P a s' → Eff.wp (f a) Q E s') :
    Eff.wp (x >>= f) Q E s := by
  rw [wp_bind]
  exact wp_mono hx (fun a s' h => hf a s' (IsTrans.trans _ _ _ hs h.1) h.2)
    fun e s' h => hE e s' (IsTrans.trans _ _ _ hs h)

theorem Preserves.step_of (hx : Preserves R x) (hs : R s₀ s) (hE : ∀ e s', R s₀ s' → E e s')
    (hf : ∀ a s', R s₀ s' → Eff.wp (f a) Q E s') : Eff.wp (x >>= f) Q E s :=
  wp_step_of hs (P := fun _ _ => True) (hx.wp (fun _ _ h => ⟨h, trivial⟩) fun _ _ h => h) hE
    fun a s' h _ => hf a s' h

theorem wp_step (hs : R s₀ s) (hx : Eff.wp x (fun a s' => R s s' ∧ P a s') (fun _ => R s) s)
    (hf : ∀ a s', R s₀ s' → P a s' → Eff.wp (f a) Q (fun _ => R s₀) s') :
    Eff.wp (x >>= f) Q (fun _ => R s₀) s :=
  wp_step_of hs hx (fun _ _ h => h) hf

theorem Preserves.step (hx : Preserves R x) (hs : R s₀ s)
    (hf : ∀ a s', R s₀ s' → Eff.wp (f a) Q (fun _ => R s₀) s') :
    Eff.wp (x >>= f) Q (fun _ => R s₀) s :=
  hx.step_of hs (fun _ _ h => h) hf

end Steps

end Preserves

/-! ### Errors -/

/-- Every error of `x` is in `P`. -/
def Raises (P : ε → Prop) (x : Eff σ ε α) : Prop :=
  ∀ s, wp x (fun _ _ => True) (fun e _ => P e) s

section Raises

variable {P : ε → Prop}

theorem raises_pure (a : α) : Raises P (pure a : Eff σ ε α) := fun _ => trivial

theorem raises_get : Raises P (get : Eff σ ε σ) := fun _ => trivial

theorem raises_modify (f : σ → σ) : Raises P (modify f : Eff σ ε Unit) := fun _ => trivial

theorem raises_fail {e : ε} (h : P e) : Raises P (fail e : Eff σ ε α) := fun _ => h

theorem raises_ofExcept {x : Except ε α} (h : ∀ e, x = .error e → P e) :
    Raises P (ofExcept x : Eff σ ε α) :=
  fun _ => wp_ofExcept (fun _ _ => trivial) h

theorem Raises.bind (hx : Raises P x) (hf : ∀ a, Raises P (f a)) : Raises P (x >>= f) :=
  fun s => wp_seq (hx s) fun a s' _ => hf a s'

theorem Raises.ite {c : Prop} [Decidable c] {x y : Eff σ ε α} (hx : Raises P x)
    (hy : Raises P y) : Raises P (if c then x else y) := by
  split
  · exact hx
  · exact hy

theorem Raises.unless {c : Prop} [Decidable c] {e : ε} {f : Unit → Eff σ ε α} (he : P e)
    (hf : Raises P (f ())) : Raises P (if c then fail e >>= f else f ()) :=
  Raises.ite (fun _ => he) hf

theorem Raises.foldlM {f : α → γ → Eff σ ε α} (hf : ∀ a c, Raises P (f a c)) (a : α)
    (l : List γ) : Raises P (foldlM f a l) := by
  induction l generalizing a with
  | nil => exact raises_pure a
  | cons c rest ih => exact (hf a c).bind fun a' => ih a'

/-- What a computation returns, when its errors are known. -/
theorem Raises.wp (hx : Raises P x) (h : wp x Q (fun _ _ => True) s) : wp x Q (fun e _ => P e) s :=
  wp_mono (wp_and h (hx s)) (fun _ _ h => h.1) fun _ _ h => h.2

section Steps

variable {A : Prop} {x : Eff σ ε α} {f : α → Eff σ ε β} {Q' : β → σ → Prop} {G : σ → Prop}

/-- A callee of which the state is known after every outcome, and the errors when `A` holds. -/
theorem Raises.seq (hr : A → Raises P x) (h : Eff.wp x Q (fun _ => G) s)
    (hE : ∀ e s', G s' → (A → P e) → E e s') (hf : ∀ a s', Q a s' → Eff.wp (f a) Q' E s') :
    Eff.wp (x >>= f) Q' E s := by
  rw [wp_bind]
  by_cases hA : A
  · exact wp_mono (wp_and h (hr hA s)) (fun a s' h => hf a s' h.1)
      fun e s' h => hE e s' h.1 fun _ => h.2
  · exact wp_mono h hf fun e s' h => hE e s' h fun h => absurd h hA

theorem Raises.step {R : σ → σ → Prop} [IsTrans σ R] {s₀ : σ} (hr : A → Raises P x)
    (hx : Preserves R x) (hs : R s₀ s) (hE : ∀ e s', R s₀ s' → (A → P e) → E e s')
    (hf : ∀ a s', R s₀ s' → Eff.wp (f a) Q' E s') : Eff.wp (x >>= f) Q' E s :=
  Raises.seq hr (hx s) (fun e s' h => hE e s' (IsTrans.trans _ _ _ hs h))
    fun a s' h => hf a s' (IsTrans.trans _ _ _ hs h)

end Steps

end Raises

end Eff

import Rrflow.Lib.Checks

/-!
Readers: computations that consume a list from the front.

A reader reads a code when it accepts exactly the words that begin with the code of
a value, and then returns that value and the rest of the word. Decoding what was
encoded and re-encoding what was decoded are two readings of this one statement, and
a code with a reader can be followed by anything.
-/

/-- A computation that takes its input from the front of a word and may fail. -/
abbrev Reader (ε β α : Type) := StateT (List β) (Except ε) α

namespace Reader

open List

variable {ε β α γ : Type}

/-- The reader accepts the codes of values and nothing else. -/
def Reads (reader : Reader ε β α) (code : α → List β) : Prop :=
  ∀ word a rest, reader word = .ok (a, rest) ↔ word = code a ++ rest

variable {word rest : List β} {reader : Reader ε β α}

theorem bind_eq_ok {next : α → Reader ε β γ} {c : γ} :
    (reader >>= next) word = .ok (c, rest) ↔
      ∃ a middle, reader word = .ok (a, middle) ∧ next a middle = .ok (c, rest) := by
  change (reader word >>= fun p => next p.1 p.2) = _ ↔ _
  rw [Checks.bind_eq_ok, Prod.exists]

theorem pure_eq_ok {a c : α} :
    (pure a : Reader ε β α) word = .ok (c, rest) ↔ a = c ∧ word = rest := by
  change Except.ok (a, word) = _ ↔ _
  rw [Except.ok.injEq, Prod.mk.injEq]

theorem map_eq_ok {f : α → γ} {c : γ} :
    (f <$> reader) word = .ok (c, rest) ↔ ∃ a, f a = c ∧ reader word = .ok (a, rest) := by
  change (reader >>= fun a => pure (f a)) word = _ ↔ _
  rw [bind_eq_ok]
  constructor
  · rintro ⟨a, middle, hread, hpure⟩
    obtain ⟨rfl, rfl⟩ := pure_eq_ok.mp hpure
    exact ⟨a, rfl, hread⟩
  · rintro ⟨a, rfl, hread⟩
    exact ⟨a, rest, hread, pure_eq_ok.mpr ⟨rfl, rfl⟩⟩

theorem lift_eq_ok {x : Except ε α} {a : α} :
    (liftM x : Reader ε β α) word = .ok (a, rest) ↔ x = .ok a ∧ word = rest := by
  change (x >>= fun b => Except.ok (b, word)) = _ ↔ _
  rw [Checks.bind_eq_ok]
  constructor
  · rintro ⟨b, hx, hpair⟩
    cases hpair
    exact ⟨hx, rfl⟩
  · rintro ⟨hx, rfl⟩
    exact ⟨a, hx, rfl⟩

namespace Reads

variable {reader : Reader ε β α} {code : α → List β}

theorem read (h : Reads reader code) (a : α) (rest : List β) :
    reader (code a ++ rest) = .ok (a, rest) :=
  (h _ a rest).mpr rfl

/-- What follows a code can be told from it. -/
theorem cancel (h : Reads reader code) {a b : α} {rest rest' : List β}
    (heq : code a ++ rest = code b ++ rest') : a = b ∧ rest = rest' := by
  have hread := h.read a rest
  rw [heq, h.read b rest', Except.ok.injEq, Prod.mk.injEq] at hread
  exact ⟨hread.1.symm, hread.2.symm⟩

/-- Codes that can be followed by anything are told apart element by element. -/
theorem isPrefix_flatMap (h : Reads reader code) (hcode : ∀ a, code a ≠ []) {as bs : List α} :
    as.flatMap code <+: bs.flatMap code ↔ as <+: bs := by
  induction as generalizing bs with
  | nil => simp
  | cons a as ih =>
    cases bs with
    | nil => simp [hcode a]
    | cons b bs =>
      rw [flatMap_cons, flatMap_cons, cons_prefix_cons]
      constructor
      · rintro ⟨rest, hrest⟩
        rw [append_assoc] at hrest
        obtain ⟨rfl, htail⟩ := h.cancel hrest
        exact ⟨rfl, ih.mp ⟨rest, htail⟩⟩
      · rintro ⟨rfl, htail⟩
        exact (prefix_append_right_inj _).mpr (ih.mpr htail)

theorem shrinks (h : Reads reader code) (hcode : ∀ a, code a ≠ []) (word : List β) (a : α)
    (rest : List β) (hread : reader word = .ok (a, rest)) : rest.length < word.length := by
  rw [(h word a rest).mp hread, length_append]
  have hpos := length_pos_of_ne_nil (hcode a)
  omega

end Reads

/-- Values are read one after another until the word ends. -/
def whole (reader : Reader ε β α)
    (h : ∀ word a rest, reader word = .ok (a, rest) → rest.length < word.length)
    (word : List β) : Except ε (List α) :=
  if word.isEmpty then .ok []
  else
    match _ : reader word with
    | .error e => .error e
    | .ok (a, rest) => do
      let more ← whole reader h rest
      return a :: more
  termination_by word.length
  decreasing_by exact h word a rest ‹_›

theorem whole_eq_ok {code : α → List β} (hreads : Reads reader code) (hcode : ∀ a, code a ≠ [])
    (h : ∀ word a rest, reader word = .ok (a, rest) → rest.length < word.length) {word : List β}
    {as : List α} : whole reader h word = .ok as ↔ word = as.flatMap code := by
  fun_induction whole reader h word generalizing as with
  | case1 word hempty =>
    rw [isEmpty_iff.mp hempty, Except.ok.injEq]
    cases as with
    | nil => simp
    | cons a as => simp [hcode a]
  | case2 word hne e herror =>
    refine iff_of_false (by simp) fun heq => ?_
    cases as with
    | nil => exact hne (by rw [heq]; rfl)
    | cons a as =>
      rw [heq, flatMap_cons, hreads.read] at herror
      cases herror
  | case3 word hne a rest hread ih =>
    rw [Checks.bind_eq_ok]
    rw [hreads] at hread
    constructor
    · rintro ⟨more, hmore, hcons⟩
      cases hcons
      rw [hread, ih.mp hmore, flatMap_cons]
    · rintro heq
      cases as with
      | nil => exact absurd (by rw [heq]; rfl) hne
      | cons b bs =>
        rw [hread, flatMap_cons] at heq
        obtain ⟨rfl, hrest⟩ := hreads.cancel heq
        exact ⟨bs, ih.mpr hrest, rfl⟩

end Reader

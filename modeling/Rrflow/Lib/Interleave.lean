import Rrflow.Lib.Checks

/-!
Programs of any number of threads that share a state.

A program accesses the shared state by atomic actions and computes in between. In a run any
thread may take the next action, new calls may begin and the surroundings may change the
state at any time. An answer is given with the last action of its call.

The rule for such runs is that of relies and guarantees: if every thread, whatever the
others do within its rely, keeps to its guarantee, then what every guaranteed step keeps
holds throughout the run (`Run.keeps`).
-/

namespace Interleave

open List

/-- A program with actions in `A`, where `R a` are the replies to `a`. -/
inductive Prog (A : Type) (R : A → Type) (ρ : Type)
  | done (answer : ρ)
  | act (action : A) (next : R action → Prog A R ρ)

section Programs

variable {A : Type} {R : A → Type} {ρ σ : Type}

def Prog.answer? : Prog A R ρ → Option ρ
  | .done answer => some answer
  | .act _ _ => none

def Prog.andThen : Prog A R ρ → (ρ → Prog A R σ) → Prog A R σ
  | .done answer, f => f answer
  | .act action next, f => .act action fun reply => (next reply).andThen f

end Programs

/-! ### Tasks -/

/-- A program that ends with a result or an error; replies may be errors as well. -/
def Task (A : Type) (V : A → Type) (ε : Type) (α : Type) : Type :=
  Prog A (fun action => Except ε (V action)) (Except ε α)

namespace Task

variable {A : Type} {V : A → Type} {ε α β : Type}

def ofExcept (x : Except ε α) : Task A V ε α := .done x

/-- Go on with the result; an error ends the task. -/
def andThen (task : Task A V ε α) (f : α → Task A V ε β) : Task A V ε β :=
  Prog.andThen task fun
    | .ok a => f a
    | .error error => .done (.error error)

instance : Monad (Task A V ε) where
  pure a := ofExcept (.ok a)
  bind := andThen

theorem bind_assoc {γ : Type} (task : Task A V ε α) (f : α → Task A V ε β)
    (g : β → Task A V ε γ) : (task >>= f) >>= g = task >>= fun a => f a >>= g := by
  show Task.andThen (Task.andThen task f) g = Task.andThen task fun a => Task.andThen (f a) g
  induction task with
  | done answer => cases answer <;> rfl
  | act action next ih =>
    show Prog.act action _ = Prog.act action _
    congr 1
    funext reply
    exact ih reply

theorem pure_bind (a : α) (f : α → Task A V ε β) : (pure a : Task A V ε α) >>= f = f a := rfl

def access (action : A) : Task A V ε (V action) := .act action .done

def require (c : Prop) [Decidable c] (error : ε) : Task A V ε Unit :=
  ofExcept (Checks.ensure c error)

end Task

section Runs

variable {A : Type} {R : A → Type} {ρ S κ : Type}

/-- What shares the state: how actions answer and change it, how the surroundings change it,
the program of each call, and where it all starts. -/
structure System (A : Type) (R : A → Type) (ρ S κ : Type) where
  acts : (action : A) → S → R action → S → Prop
  environment : S → S → Prop
  program : κ → Prog A R ρ
  initial : S → Prop

variable (system : System A R ρ S κ)

/-- The states of a run with the threads of the calls that have begun and the answers given,
in order. -/
inductive Run : S → List (κ × Prog A R ρ) → List ρ → Prop
  | start {s : S} : system.initial s → Run s [] []
  | surroundings {s s' : S} {threads : List (κ × Prog A R ρ)} {answers : List ρ} :
      Run s threads answers → system.environment s s' → Run s' threads answers
  | call {s : S} {threads : List (κ × Prog A R ρ)} {answers : List ρ} (call : κ) :
      Run s threads answers → Run s (threads ++ [(call, system.program call)]) answers
  | step {s s' : S} {before after : List (κ × Prog A R ρ)} {answers : List ρ} {call : κ}
      {action : A} {next : R action → Prog A R ρ} {reply : R action} :
      Run s (before ++ (call, .act action next) :: after) answers →
      system.acts action s reply s' →
      Run s' (before ++ (call, next reply) :: after) (answers ++ (next reply).answer?.toList)

variable {system}

/-- What a thread may rely on, what it guarantees of each of its actions (with the answer, if
the action is the last one) and what always holds. -/
structure Contract (system : System A R ρ S κ) where
  always : S → Prop
  rely : S → S → Prop
  guarantee : κ → S → S → Option ρ → Prop
  rely_refl : ∀ s, rely s s
  rely_trans : ∀ s t u, rely s t → rely t u → rely s u
  initial : ∀ s, system.initial s → always s
  environment : ∀ s s', always s → system.environment s s' → rely s s' ∧ always s'
  guaranteed : ∀ call s s' answer, always s → guarantee call s s' answer → rely s s' ∧ always s'

variable (contract : Contract system)

/-- Whatever the others do, the rest of a program keeps to the guarantee. -/
def Keeps (call : κ) : Prog A R ρ → S → Prop
  | .done _, _ => True
  | .act action next, s => ∀ s' reply s'', contract.rely s s' → contract.always s' →
      system.acts action s' reply s'' →
        contract.guarantee call s' s'' (next reply).answer? ∧ Keeps call (next reply) s''

variable {contract}

theorem Keeps.mono {call : κ} {prog : Prog A R ρ} {s s' : S} (h : Keeps contract call prog s)
    (hrely : contract.rely s s') : Keeps contract call prog s' := by
  cases prog with
  | done answer => trivial
  | act action next =>
    intro t reply t' ht halways hacts
    exact h t reply t' (contract.rely_trans _ _ _ hrely ht) halways hacts

variable {s : S} {threads : List (κ × Prog A R ρ)} {answers : List ρ}

theorem Run.keeps (h : Run system s threads answers)
    (hprogram : ∀ call s, Keeps contract call (system.program call) s) :
    contract.always s ∧ ∀ thread ∈ threads, Keeps contract thread.1 thread.2 s := by
  induction h with
  | start hinitial => exact ⟨contract.initial _ hinitial, nofun⟩
  | surroundings _ henvironment ih =>
    obtain ⟨hrely, halways⟩ := contract.environment _ _ ih.1 henvironment
    exact ⟨halways, fun thread hthread => (ih.2 thread hthread).mono hrely⟩
  | call call _ ih =>
    refine ⟨ih.1, fun thread hthread => ?_⟩
    rcases mem_append.mp hthread with hthread | hthread
    · exact ih.2 thread hthread
    · rw [mem_singleton.mp hthread]
      exact hprogram call _
  | @step s s' before after answers call action next reply _ hacts ih =>
    have hthread := ih.2 (call, .act action next) (by simp)
    obtain ⟨hguarantee, hnext⟩ := hthread s reply s' (contract.rely_refl s) ih.1 hacts
    obtain ⟨hrely, halways⟩ := contract.guaranteed _ _ _ _ ih.1 hguarantee
    refine ⟨halways, fun thread hmem => ?_⟩
    have hothers : thread ∈ before ++ after → Keeps contract thread.1 thread.2 s' :=
      fun hmem => (ih.2 thread (by simp at hmem ⊢; grind)).mono hrely
    rcases mem_append.mp hmem with hmem | hmem
    · exact hothers (mem_append_left _ hmem)
    · rcases mem_cons.mp hmem with rfl | hmem
      · exact hnext
      · exact hothers (mem_append_right _ hmem)

theorem Run.guarantee (h : Run system s threads answers)
    (hprogram : ∀ call s, Keeps contract call (system.program call) s) {call : κ} {action : A}
    {next : R action → Prog A R ρ} (hthread : (call, .act action next) ∈ threads)
    {reply : R action} {s' : S} (hacts : system.acts action s reply s') :
    contract.guarantee call s s' (next reply).answer? := by
  obtain ⟨halways, hkeeps⟩ := h.keeps hprogram
  exact (hkeeps _ hthread s reply s' (contract.rely_refl s) halways hacts).1

/-- What holds at the start and is kept by the surroundings and by every guaranteed step
holds throughout the run. -/
theorem Run.induction {P : S → List ρ → Prop} (h : Run system s threads answers)
    (hprogram : ∀ call s, Keeps contract call (system.program call) s)
    (hinitial : ∀ s, system.initial s → P s [])
    (henvironment : ∀ s s' answers, contract.always s → system.environment s s' →
      P s answers → P s' answers)
    (hstep : ∀ call s s' answer answers, contract.always s →
      contract.guarantee call s s' answer → P s answers → P s' (answers ++ answer.toList)) :
    P s answers := by
  induction h with
  | start hstart => exact hinitial _ hstart
  | surroundings hrun henv ih => exact henvironment _ _ _ (hrun.keeps hprogram).1 henv ih
  | call _ _ ih => exact ih
  | @step s s' before after answers call action next reply hrun hacts ih =>
    have hthread : (call, Prog.act action next) ∈ before ++ (call, .act action next) :: after := by
      simp
    exact hstep call _ _ _ _ (hrun.keeps hprogram).1 (hrun.guarantee hprogram hthread hacts) ih

/-- The next event of a schedule: a call begins, or the thread at a place takes a step. -/
inductive Turn (κ : Type)
  | call (call : κ)
  | step (thread : Nat)

/-- One more turn, under one possible reply to each action; threads that have ended stay. -/
def System.turn (system : System A R ρ S κ) (perform : (action : A) → S → R action × S)
    (at_ : S × List (κ × Prog A R ρ) × List ρ) : Turn κ → S × List (κ × Prog A R ρ) × List ρ
  | .call call => (at_.1, at_.2.1 ++ [(call, system.program call)], at_.2.2)
  | .step thread =>
    match at_.2.1[thread]? with
    | some (call, .act action next) =>
      let (reply, s) := perform action at_.1
      (s, at_.2.1.set thread (call, next reply), at_.2.2 ++ (next reply).answer?.toList)
    | _ => at_

/-- A schedule leads to a run. -/
theorem run_foldl_turn {perform : (action : A) → S → R action × S}
    (hperform : ∀ action s, system.acts action s (perform action s).1 (perform action s).2)
    (turns : List (Turn κ)) {at_ : S × List (κ × Prog A R ρ) × List ρ}
    (h : Run system at_.1 at_.2.1 at_.2.2) :
    let last := turns.foldl (system.turn perform) at_
    Run system last.1 last.2.1 last.2.2 := by
  induction turns generalizing at_ with
  | nil => exact h
  | cons turn rest ih =>
    refine ih ?_
    obtain ⟨s, threads, answers⟩ := at_
    cases turn with
    | call call => exact h.call call
    | step thread =>
      rw [System.turn]
      split
      · rename_i call action next hthread
        obtain ⟨hlt, hget⟩ := List.getElem?_eq_some_iff.mp hthread
        have hsplit : threads = threads.take thread ++ (call, .act action next) ::
            threads.drop (thread + 1) := by
          rw [← hget, ← drop_eq_getElem_cons hlt, take_append_drop]
        have hset : ∀ new, threads.set thread new = threads.take thread ++ new ::
            threads.drop (thread + 1) :=
          fun new => by rw [set_eq_take_append_cons_drop, if_pos hlt]
        rw [hsplit] at h
        show Run system _ (threads.set thread _) _
        rw [hset]
        exact h.step (hperform action s)
      · exact h

end Runs

section Rules

variable {A : Type} {V : A → Type} {ε α β ρ S κ : Type}
  {system : System A (fun action => Except ε (V action)) (Except ε ρ) S κ}
  {contract : Contract system} {quiet : Except ε ρ → Prop} {call : κ} {s : S}

/-- A task that keeps to the guarantee and has not just ended with anything but a quiet
answer. -/
def Holds (contract : Contract system) (quiet : Except ε ρ → Prop) (call : κ)
    (task : Task A V ε ρ) (s : S) : Prop :=
  (∀ answer ∈ Prog.answer? task, quiet answer) ∧ Keeps contract call task s

theorem holds_result {answer : Except ε ρ} (h : quiet answer) :
    Holds contract quiet call (Task.ofExcept answer : Task A V ε ρ) s := by
  refine ⟨fun other hother => ?_, trivial⟩
  obtain rfl : answer = other := by simpa [Task.ofExcept, Prog.answer?] using hother
  exact h

section

variable (hquiet : ∀ error, quiet (.error error))

include hquiet

theorem holds_ofExcept {x : Except ε α} {f : α → Task A V ε ρ}
    (h : ∀ a, x = .ok a → Holds contract quiet call (f a) s) :
    Holds contract quiet call (Task.ofExcept x >>= f) s := by
  cases x with
  | ok a => exact h a rfl
  | error error => exact holds_result (hquiet error)

theorem holds_require {c : Prop} [Decidable c] {error : ε}
    {f : Unit → Task A V ε ρ} (h : c → Holds contract quiet call (f ()) s) :
    Holds contract quiet call (Task.require c error >>= f) s :=
  holds_ofExcept hquiet fun _ hok => h (Checks.ensure_eq_ok.mp hok)

theorem holds_read
    (hstay : ∀ call s answer, (∀ a ∈ answer, quiet a) → contract.guarantee call s s answer)
    (action : A) (hread : ∀ s reply s', system.acts action s reply s' → s' = s)
    {f : V action → Task A V ε ρ}
    (h : ∀ s' value, contract.rely s s' → contract.always s' →
      system.acts action s' (.ok value) s' → Holds contract quiet call (f value) s') :
    Holds contract quiet call (Task.access action >>= f) s := by
  refine ⟨nofun, fun s' reply s'' hrely halways hacts => ?_⟩
  obtain rfl := hread s' reply s'' hacts
  have hnext : Holds contract quiet call (Task.ofExcept reply >>= f) s'' :=
    holds_ofExcept hquiet fun value hvalue => h s'' value hrely halways (hvalue ▸ hacts)
  exact ⟨hstay call s'' _ hnext.1, hnext.2⟩

end

/-- An action that ends the task: its answer belongs to its effect. -/
theorem holds_last (action : A) {f : V action → ρ}
    (h : ∀ s' s'', contract.rely s s' → contract.always s' →
      (∀ value, system.acts action s' (.ok value) s'' →
        contract.guarantee call s' s'' (some (.ok (f value)))) ∧
      ∀ error, system.acts action s' (.error error) s'' →
        contract.guarantee call s' s'' (some (.error error))) :
    Holds contract quiet call (Task.access action >>= fun value => pure (f value)) s := by
  refine ⟨nofun, fun s' reply s'' hrely halways hacts => ?_⟩
  obtain ⟨hok, herror⟩ := h s' s'' hrely halways
  cases reply with
  | ok value => exact ⟨hok value hacts, trivial⟩
  | error error => exact ⟨herror error hacts, trivial⟩

end Rules

end Interleave

import Rrflow.Kernel.Schema

/-!
Domain forests of an estate.

Parents are checked one domain at a time, in the order of their names, and each
check ends with a walk over the ancestors of that domain. The walk may therefore
reach a domain whose own parent has not been looked at yet. These are the
organisations for which that aborts the program, and what acceptance means for
the others.
-/

namespace Rrflow.Kernel

open Checks List

variable {α β : Type} {x : Except Error α}

/-- The computation aborts the program. -/
def Panics (x : Except Error α) : Prop := ∃ message, x = .error (.panicked message)

@[simp] theorem not_panics_ok (a : α) : ¬Panics (.ok a : Except Error α) := by simp [Panics]

@[simp] theorem not_panics_invalid (reason : String) :
    ¬Panics (invalid reason : Except Error α) := by
  simp [Panics, invalid]

@[simp] theorem not_panics_ensure {c : Prop} [Decidable c] (reason : String) :
    ¬Panics (ensure c (.invalidRuntime reason)) := by
  unfold ensure
  split <;> simp [Panics]

@[simp] theorem panics_bind {f : α → Except Error β} :
    Panics (x >>= f) ↔ Panics x ∨ ∃ a, x = .ok a ∧ Panics (f a) := by
  cases x with
  | error e => simp [Panics, bind, Except.bind]
  | ok a => simp [Panics, bind, Except.bind]

@[simp] theorem panics_map {f : α → β} : Panics (f <$> x) ↔ Panics x := by
  cases x with
  | error e => simp [Panics]
  | ok a => simp [Panics]

/-- A loop aborts at the first member whose step does not return. -/
theorem panics_forM {f : α → Except Error Unit} {l : List α} :
    Panics (l.forM f) ↔ ∃ before a after, l = before ++ a :: after ∧
      (∀ b ∈ before, f b = .ok ()) ∧ Panics (f a) := by
  induction l with
  | nil => simp [List.forM, pure, Except.pure]
  | cons a rest ih =>
    show Panics (f a >>= fun _ => rest.forM f) ↔ _
    rw [panics_bind, ih]
    constructor
    · rintro (hfirst | ⟨_, hfirst, before, b, after, rfl, hbefore, hb⟩)
      · exact ⟨[], a, rest, rfl, by simp, hfirst⟩
      · exact ⟨a :: before, b, after, rfl, forall_mem_cons.mpr ⟨hfirst, hbefore⟩, hb⟩
    · rintro ⟨before, b, after, hsplit, hbefore, hb⟩
      rcases cons_eq_append_iff.mp hsplit with ⟨rfl, heq⟩ | ⟨before, rfl, rfl⟩
      · cases heq
        exact .inl hb
      · obtain ⟨hfirst, hbefore⟩ := forall_mem_cons.mp hbefore
        exact .inr ⟨(), hfirst, before, b, after, rfl, hbefore, hb⟩

@[simp] theorem not_panics_forM {f : α → Except Error Unit} {l : List α}
    (h : ∀ a, ¬Panics (f a)) : ¬Panics (l.forM f) := by
  rw [panics_forM]
  rintro ⟨_, a, _, _, _, ha⟩
  exact h a ha

theorem not_panics_foldlM {σ : Type} {f : σ → α → Except Error σ} (h : ∀ s a, ¬Panics (f s a))
    (l : List α) (s : σ) : ¬Panics (l.foldlM f s) := by
  rintro ⟨message, hpanic⟩
  refine Errs.foldlM (P := fun e => e ≠ .panicked message) ?_ s l _ hpanic rfl
  rintro s a _ hstep rfl
  exact h s a ⟨message, hstep⟩

namespace RuntimeEstateOrganisation

variable (organisation : RuntimeEstateOrganisation) (id : RuntimeType)

/-- The parent of a declared domain below the top level. -/
def parentOf : Option RuntimeType :=
  (organisation.domains.find? id).bind fun domain =>
    domain.parent.filter fun parent => parent.val != defaultDomain

/-- `last` is `n` parents above `current`, and `id` is none of them. -/
inductive Above : RuntimeType → Nat → RuntimeType → Prop
  | here {current} : Above current 0 current
  | up {current parent n last} : organisation.parentOf current = some parent → parent ≠ id →
      Above parent n last → Above current (n + 1) last

/-- The chain of parents of `id` leaves the declared domains before it is found
too deep. -/
def Strays : Prop :=
  ∃ n ≤ maxDomainDepth - 1, ∃ last, organisation.Above id id n last ∧
    organisation.domains.contains last = false

/-- The chain of parents of `id` stays inside the declared domains, and the last
of at most `maxDomainDepth` domains is at the top level. -/
def Founded : Prop :=
  ∃ n ≤ maxDomainDepth - 1, ∃ last, organisation.Above id id n last ∧
    organisation.domains.contains last ∧ organisation.parentOf last = none

/-- What is checked of a domain before the walk over its ancestors. -/
@[mk_iff] structure Declares (domain : RuntimeDomainSchema) : Prop where
  name : isBuiltinDomain id.val = false ∧ isEngineOwned id.val = false
  label : validateLabel "domain" id domain.title domain.description = .ok ()
  parent : ∀ parent ∈ domain.parent, parent.val ≠ engineDomain ∧
    (parent.val = defaultDomain ∨ organisation.domains.contains parent)

/-- Some domain has a known parent and an ancestor that is not declared, and the domains
with smaller names have known parents and end at the top level. -/
def Aborts : Prop :=
  organisation.domains.toList.length + 2 ≤ maxDomains ∧
    ∃ before id domain after, organisation.domains.toList = before ++ (id, domain) :: after ∧
      (∀ entry ∈ before, organisation.Declares entry.1 entry.2 ∧ organisation.Founded entry.1) ∧
      organisation.Declares id domain ∧ organisation.Strays id

variable {organisation id}

section Walk

variable {levels depth : Nat} {current : RuntimeType}

/-- A search along the parents looks at `current` and goes on at its parent. -/
theorem exists_above_iff {P : RuntimeType → Prop} :
    (∃ n ≤ levels, ∃ last, organisation.Above id current n last ∧ P last) ↔
      P current ∨ ∃ parent, organisation.parentOf current = some parent ∧ parent ≠ id ∧
        ∃ m, levels = m + 1 ∧ ∃ n ≤ m, ∃ last, organisation.Above id parent n last ∧ P last := by
  constructor
  · rintro ⟨n, hn, last, habove, hlast⟩
    cases habove with
    | here => exact .inl hlast
    | @up _ parent m _ hparent hne habove =>
      exact .inr ⟨parent, hparent, hne, levels - 1, by omega, m, by omega, last, habove, hlast⟩
  · rintro (hlast | ⟨parent, hparent, hne, m, rfl, n, hn, last, habove, hlast⟩)
    · exact ⟨0, Nat.zero_le _, current, .here, hlast⟩
    · exact ⟨n + 1, by omega, last, .up hparent hne habove, hlast⟩

theorem parentOf_eq {domain : RuntimeDomainSchema}
    (h : organisation.domains.find? id = some domain) :
    organisation.domains.contains id = true ∧ organisation.parentOf id =
      domain.parent.filter fun parent => parent.val != defaultDomain := by
  simp [SortedMap.contains, parentOf, h]

theorem panics_domainDepthFrom :
    Panics (organisation.domainDepthFrom id levels depth current) ↔ ∃ n ≤ levels, ∃ last,
      organisation.Above id current n last ∧ organisation.domains.contains last = false := by
  fun_induction domainDepthFrom organisation id levels depth current with
  | case1 levels depth current hnone =>
    rw [exists_above_iff]
    simp [SortedMap.contains, hnone, Panics]
  | case2 levels depth current domain hfind hparent =>
    rw [exists_above_iff, (parentOf_eq hfind).1, (parentOf_eq hfind).2, hparent]
    simp
  | case3 levels depth current domain hfind hparent =>
    rw [exists_above_iff, (parentOf_eq hfind).1, (parentOf_eq hfind).2, hparent]
    simp
  | case4 depth current domain hfind parent hparent hne =>
    rw [exists_above_iff, (parentOf_eq hfind).1, (parentOf_eq hfind).2, hparent]
    simp
  | case5 depth current domain hfind parent hparent hne levels ih =>
    rw [exists_above_iff, (parentOf_eq hfind).1, (parentOf_eq hfind).2, hparent, ih]
    simp [hne, -Subtype.exists]

theorem exists_domainDepthFrom_eq_ok :
    (∃ result, organisation.domainDepthFrom id levels depth current = .ok result) ↔
      ∃ n ≤ levels, ∃ last, organisation.Above id current n last ∧
        organisation.domains.contains last ∧ organisation.parentOf last = none := by
  fun_induction domainDepthFrom organisation id levels depth current with
  | case1 levels depth current hnone =>
    rw [exists_above_iff]
    simp [SortedMap.contains, parentOf, hnone]
  | case2 levels depth current domain hfind hparent =>
    rw [exists_above_iff, (parentOf_eq hfind).1, (parentOf_eq hfind).2, hparent]
    simp
  | case3 levels depth current domain hfind hparent =>
    rw [exists_above_iff, (parentOf_eq hfind).1, (parentOf_eq hfind).2, hparent]
    simp [invalid]
  | case4 depth current domain hfind parent hparent hne =>
    rw [exists_above_iff, (parentOf_eq hfind).1, (parentOf_eq hfind).2, hparent]
    simp [invalid]
  | case5 depth current domain hfind parent hparent hne levels ih =>
    rw [exists_above_iff, (parentOf_eq hfind).1, (parentOf_eq hfind).2, hparent, ih]
    simp [hne, -Subtype.exists]

end Walk

theorem panics_validateDomain {domain : RuntimeDomainSchema} :
    Panics (organisation.validateDomain id domain) ↔
      organisation.Declares id domain ∧ organisation.Strays id := by
  have hlabel : ¬Panics (validateLabel "domain" id domain.title domain.description) := by
    simp [validateLabel]
  have hwalk : Panics (organisation.domainDepth id) ↔ organisation.Strays id :=
    panics_domainDepthFrom
  unfold validateDomain
  split <;> simp_all [declares_iff, and_assoc, Unique.exists_iff]

theorem validateDomain_eq_ok {domain : RuntimeDomainSchema} :
    organisation.validateDomain id domain = .ok () ↔
      organisation.Declares id domain ∧ organisation.Founded id := by
  have hwalk : (fun _ => ()) <$> organisation.domainDepth id = .ok () ↔
      organisation.Founded id := by
    rw [Founded, ← exists_domainDepthFrom_eq_ok, domainDepth]
    cases organisation.domainDepthFrom id (maxDomainDepth - 1) 1 id <;> simp
  unfold validateDomain
  split <;> simp_all [bind_eq_ok, declares_iff, and_assoc, Unique.exists_iff]

theorem not_panics_validateKindTag (kind : RuntimeType) (single : SortedSet RuntimeType)
    (reference : RuntimeTagRef) : ¬Panics (organisation.validateKindTag kind single reference) := by
  simp only [validateKindTag]
  split
  · simp
  · split <;> simp [pure, Except.pure]

/-- The checks after those of the domains return an answer. -/
theorem panics_validate {tables : Tables} :
    Panics (organisation.validate tables) ↔ organisation.Aborts := by
  have htags := fun kind => not_panics_foldlM (organisation.not_panics_validateKindTag kind)
  have hchecks : Panics (organisation.validate tables) ↔
      organisation.domains.toList.length + 2 ≤ maxDomains ∧ Panics (organisation.domains.toList.forM
        fun entry => organisation.validateDomain entry.1 entry.2) := by
    simp [validate, validateMembership, validateCategory, validateLabel, validateKindTags, htags,
      -forM_eq_forM]
  rw [hchecks, panics_forM]
  simp only [panics_validateDomain, validateDomain_eq_ok, Aborts, Prod.exists]

/-- Validation returns an answer, and accepts forests of declared domains only. -/
theorem validate_sound_iff (organisation : RuntimeEstateOrganisation) (tables : Tables) :
    ((∀ message, organisation.validate tables ≠ .error (.panicked message)) ∧
      (organisation.validate tables = .ok () →
        ∀ id, organisation.domains.contains id → organisation.Founded id)) ↔
      ¬organisation.Aborts := by
  rw [← @panics_validate organisation tables, Panics, not_exists]
  refine and_iff_left fun hok id hid => ?_
  simp only [validate, bind_eq_ok, forM_eq_ok] at hok
  obtain ⟨_, _, _, hdomains, _⟩ := hok
  obtain ⟨domain, hfind⟩ := Option.isSome_iff_exists.mp hid
  exact (validateDomain_eq_ok.mp
    (hdomains (id, domain) (SortedMap.mem_toList_iff.mpr hfind))).2

/-- Two domains, the second inside an undeclared third. -/
def strayed : RuntimeEstateOrganisation :=
  let inside (parent : RuntimeType) : RuntimeDomainSchema := ⟨"title", "", some parent⟩
  { default_ with domains := .ofList [(⟨"a", by decide⟩, inside ⟨"b", by decide⟩),
      (⟨"b", by decide⟩, inside ⟨"c", by decide⟩)] }

theorem validate_strayed_panics :
    strayed.validate .empty = .error (.panicked "no entry found for key") := by
  decide +kernel

end RuntimeEstateOrganisation

end Rrflow.Kernel

import Mathlib

/-!
Self-delimiting encodings into lists of numbers.

A `Wire` encodes values so that an encoding followed by anything determines both
the value and what follows. Such encodings compose: fields are concatenated, and
a list marks each element and its end. They are injective, so that an encoding
can stand for an ideal fingerprint of its value.
-/

structure Wire (α : Type) where
  put : α → List ℕ
  cancel : ∀ a b rest rest', put a ++ rest = put b ++ rest' → a = b ∧ rest = rest'

namespace Wire

variable {α β : Type}

theorem injective (wire : Wire α) : Function.Injective wire.put := by
  intro a b h
  refine (wire.cancel a b [] [] ?_).1
  rw [h]

def nat : Wire ℕ where
  put n := [n]
  cancel a b rest rest' h := by simpa using h

/-- A value is encoded as its image under an injection. -/
def via (wire : Wire β) (f : α → β) (hf : Function.Injective f) : Wire α where
  put a := wire.put (f a)
  cancel a b rest rest' h := by
    obtain ⟨heq, hrest⟩ := wire.cancel _ _ _ _ h
    exact ⟨hf heq, hrest⟩

def pair (first : Wire α) (second : Wire β) : Wire (α × β) where
  put p := first.put p.1 ++ second.put p.2
  cancel a b rest rest' h := by
    rw [List.append_assoc, List.append_assoc] at h
    obtain ⟨hfst, h⟩ := first.cancel _ _ _ _ h
    obtain ⟨hsnd, h⟩ := second.cancel _ _ _ _ h
    exact ⟨Prod.ext hfst hsnd, h⟩

def option (wire : Wire α) : Wire (Option α) where
  put
    | none => [0]
    | some a => 1 :: wire.put a
  cancel a b rest rest' h := by
    cases a with
    | none =>
      cases b with
      | none => exact ⟨rfl, by simpa using h⟩
      | some b => simp at h
    | some a =>
      cases b with
      | none => simp at h
      | some b =>
        obtain ⟨rfl, hrest⟩ := wire.cancel _ _ _ _ (List.cons.inj h).2
        exact ⟨rfl, hrest⟩

/-- Every element is preceded by a mark, and the list is closed by another. -/
def putList (wire : Wire α) : List α → List ℕ
  | [] => [0]
  | a :: l => 1 :: (wire.put a ++ putList wire l)

def list (wire : Wire α) : Wire (List α) where
  put := wire.putList
  cancel a := by
    induction a with
    | nil =>
      intro b rest rest' h
      cases b with
      | nil => exact ⟨rfl, by simpa [putList] using h⟩
      | cons _ _ => simp [putList] at h
    | cons x a ih =>
      intro b rest rest' h
      cases b with
      | nil => simp [putList] at h
      | cons y b =>
        simp only [putList, List.cons_append, List.append_assoc, List.cons.injEq, true_and] at h
        obtain ⟨rfl, htail⟩ := wire.cancel _ _ _ _ h
        obtain ⟨rfl, hrest⟩ := ih b rest rest' htail
        exact ⟨rfl, hrest⟩

end Wire

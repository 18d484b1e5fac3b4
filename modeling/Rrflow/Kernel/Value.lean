import Mathlib

/-!
Property values.

Texts compare by their bytes, which for UTF-8 is the order of code points. A map
value keeps its entries in key order, so that equal maps are equal lists.
-/

namespace Rrflow.Kernel

/-- A property value. Decimals are texts, so that their identity does not depend
on floating-point rules. -/
inductive RuntimeValue where
  | null
  | bool (value : Bool)
  | integer (value : Int)
  | unsigned (value : Nat)
  | decimal (text : String)
  | string (text : String)
  | digest (text : String)
  | list (items : List RuntimeValue)
  | map (entries : List (String × RuntimeValue))

namespace RuntimeValue

mutual

def same : RuntimeValue → RuntimeValue → Bool
  | .null, .null => true
  | .bool a, .bool b => a == b
  | .integer a, .integer b => a == b
  | .unsigned a, .unsigned b => a == b
  | .decimal a, .decimal b => a == b
  | .string a, .string b => a == b
  | .digest a, .digest b => a == b
  | .list a, .list b => sameItems a b
  | .map a, .map b => sameEntries a b
  | _, _ => false

def sameItems : List RuntimeValue → List RuntimeValue → Bool
  | [], [] => true
  | a :: as, b :: bs => same a b && sameItems as bs
  | _, _ => false

def sameEntries : List (String × RuntimeValue) → List (String × RuntimeValue) → Bool
  | [], [] => true
  | (k, a) :: as, (l, b) :: bs => k == l && same a b && sameEntries as bs
  | _, _ => false

end

mutual

theorem eq_of_same : ∀ a b : RuntimeValue, same a b = true → a = b
  | .null, b, h => by cases b <;> simp_all [same]
  | .bool _, b, h => by cases b <;> simp_all [same]
  | .integer _, b, h => by cases b <;> simp_all [same]
  | .unsigned _, b, h => by cases b <;> simp_all [same]
  | .decimal _, b, h => by cases b <;> simp_all [same]
  | .string _, b, h => by cases b <;> simp_all [same]
  | .digest _, b, h => by cases b <;> simp_all [same]
  | .list as, b, h => by
    cases b with
    | list bs => rw [same] at h; rw [eq_of_sameItems as bs h]
    | _ => simp [same] at h
  | .map as, b, h => by
    cases b with
    | map bs => rw [same] at h; rw [eq_of_sameEntries as bs h]
    | _ => simp [same] at h

theorem eq_of_sameItems : ∀ as bs : List RuntimeValue, sameItems as bs = true → as = bs
  | [], bs, h => by cases bs <;> simp_all [sameItems]
  | a :: as, bs, h => by
    cases bs with
    | nil => simp [sameItems] at h
    | cons b bs =>
      rw [sameItems, Bool.and_eq_true] at h
      rw [eq_of_same a b h.1, eq_of_sameItems as bs h.2]

theorem eq_of_sameEntries :
    ∀ as bs : List (String × RuntimeValue), sameEntries as bs = true → as = bs
  | [], bs, h => by cases bs <;> simp_all [sameEntries]
  | (k, a) :: as, bs, h => by
    cases bs with
    | nil => simp [sameEntries] at h
    | cons b bs =>
      obtain ⟨l, b⟩ := b
      rw [sameEntries, Bool.and_eq_true, Bool.and_eq_true, beq_iff_eq] at h
      rw [h.1.1, eq_of_same a b h.1.2, eq_of_sameEntries as bs h.2]

end

mutual

theorem same_self : ∀ a : RuntimeValue, same a a = true
  | .null => by rw [same]
  | .bool _ => by rw [same, beq_self_eq_true]
  | .integer _ => by rw [same, beq_self_eq_true]
  | .unsigned _ => by rw [same, beq_self_eq_true]
  | .decimal _ => by rw [same, beq_self_eq_true]
  | .string _ => by rw [same, beq_self_eq_true]
  | .digest _ => by rw [same, beq_self_eq_true]
  | .list as => by rw [same, sameItems_self as]
  | .map as => by rw [same, sameEntries_self as]

theorem sameItems_self : ∀ as : List RuntimeValue, sameItems as as = true
  | [] => by rw [sameItems]
  | a :: as => by rw [sameItems, same_self a, sameItems_self as, Bool.and_self]

theorem sameEntries_self : ∀ as : List (String × RuntimeValue), sameEntries as as = true
  | [] => by rw [sameEntries]
  | (k, a) :: as => by
    rw [sameEntries, same_self a, sameEntries_self as, beq_self_eq_true, Bool.and_self,
      Bool.and_self]

end

instance : DecidableEq RuntimeValue := fun a b =>
  decidable_of_iff (same a b = true) ⟨eq_of_same a b, fun h => h ▸ same_self a⟩

end RuntimeValue

end Rrflow.Kernel

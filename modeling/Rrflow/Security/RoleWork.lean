import Rrflow.Lib.Effect
import Rrflow.Security.Policy

/-!
The work of the validation of the roles.

The walk below a role forgets what it has seen on other paths, so it makes one call for
each path of the inheritance and not for each edge. What bounds it is the depth: a path
has at most `maxRoleDepth` steps, and each step takes one of the edges.
-/

namespace Rrflow.Security

open Checks Contract Eff List

/-- A run that ends as `r` does and counts at most `bound` calls. -/
def Counted (bound : Nat) (r : Except Error Unit) (x : Eff Nat Error Unit) : Prop :=
  ∀ calls, (x calls).1 = r ∧ (x calls).2 ≤ calls + bound

section Counted

variable {bound bound' : Nat} {r r' : Except Error Unit} {x y : Eff Nat Error Unit}

theorem Counted.mono (h : Counted bound r x) (hle : bound ≤ bound') : Counted bound' r x :=
  fun calls => ⟨(h calls).1, (h calls).2.trans (by omega)⟩

theorem counted_ofExcept : Counted 0 r (ofExcept r) := fun _ => ⟨rfl, le_rfl⟩

theorem Counted.bind (h : Counted bound r x) (h' : Counted bound' r' y) :
    Counted (bound + bound') (r >>= fun _ => r') (x >>= fun _ => y) := by
  intro calls
  obtain ⟨hr, hle⟩ := h calls
  show (Eff.bind x (fun _ => y) calls).1 = _ ∧ (Eff.bind x (fun _ => y) calls).2 ≤ _
  unfold Eff.bind
  rcases hx : x calls with ⟨e | _, calls'⟩
  · rw [hx] at hr hle
    exact ⟨hr ▸ rfl, hle.trans (by omega)⟩
  · rw [hx] at hr hle
    obtain ⟨hr', hle'⟩ := h' calls'
    exact ⟨hr'.trans (hr ▸ rfl), hle'.trans (by omega)⟩

theorem Counted.tick (h : Counted bound r x) :
    Counted (bound + 1) r (modify (· + 1) >>= fun _ => x) := by
  intro calls
  obtain ⟨hr, hle⟩ := h (calls + 1)
  exact ⟨hr, hle.trans (by omega)⟩

theorem Counted.forM {α : Type} {f : α → Eff Nat Error Unit} {g : α → Except Error Unit}
    (l : List α) (h : ∀ a, Counted bound (g a) (f a)) :
    Counted (l.length * bound) (l.forM g) (l.forM f) := by
  induction l with
  | nil => exact (counted_ofExcept (r := .ok ())).mono (Nat.zero_le _)
  | cons a rest ih =>
    rw [forM_eq_forM, forM_eq_forM, forM_cons, forM_cons]
    exact ((h a).bind ih).mono (by rw [length_cons, Nat.succ_mul, Nat.add_comm])

end Counted

variable (state : SecurityState)

/-- `validateRoleDepth` with the number of its calls as a state. -/
def validateRoleDepthCounted : Nat → List CanonicalId → CanonicalId → Eff Nat Error Unit
  | 0, _, _ => do
    modify (· + 1)
    ofExcept (.error (.invalid "role inheritance is cyclic or exceeds its depth bound"))
  | depth + 1, visiting, roleId => do
    modify (· + 1)
    if roleId ∈ visiting then
      ofExcept (.error (.invalid "role inheritance is cyclic or exceeds its depth bound"))
    else
      match state.roles.find? roleId with
      | none => ofExcept (.error (.invalid "role inheritance target is missing"))
      | some role =>
        role.inherits.keys.forM (validateRoleDepthCounted depth (roleId :: visiting))

def validateRoleCounted (id : CanonicalId) (role : Role) : Eff Nat Error Unit := do
  ofExcept (ensure (id = role.id ∧ ¬(role.inherits.keys = [] ∧ role.grants = [])
      ∧ role.grants.length ≤ maxGrantsPerPrincipal)
    (.invalid "role identity or grant bounds are invalid"))
  ofExcept (validateGrants (.invalid "role grants must be unique") role.grants)
  ofExcept (ensure (∀ inherited ∈ role.inherits.keys,
      inherited ≠ id ∧ (state.roles.find? inherited).isSome)
    (.invalid "role inheritance target is invalid"))
  validateRoleDepthCounted state maxRoleDepth [] id

def validateRolesCounted : Eff Nat Error Unit :=
  state.roles.toList.forM fun entry => validateRoleCounted state entry.1 entry.2

def inheritances : Nat := (state.roles.toList.map fun entry => entry.2.inherits.keys.length).sum

/-- Below a role every level multiplies the calls by at most the number of edges. -/
theorem counted_validateRoleDepth (depth : Nat) (visiting : List CanonicalId)
    (roleId : CanonicalId) :
    Counted ((inheritances state + 1) ^ depth) (validateRoleDepth state depth visiting roleId)
      (validateRoleDepthCounted state depth visiting roleId) := by
  induction depth generalizing visiting roleId with
  | zero => exact counted_ofExcept.tick
  | succ depth ih =>
    have hpos : 0 < (inheritances state + 1) ^ depth := Nat.pow_pos (Nat.succ_pos _)
    rw [validateRoleDepth, validateRoleDepthCounted, Nat.pow_succ', Nat.succ_mul]
    refine Counted.mono
      (@Counted.tick (inheritances state * (inheritances state + 1) ^ depth) _ _ ?_)
      (Nat.add_le_add_left hpos _)
    split
    · exact counted_ofExcept.mono (Nat.zero_le _)
    · cases hfind : state.roles.find? roleId with
      | none => exact counted_ofExcept.mono (Nat.zero_le _)
      | some role =>
        have hedges : role.inherits.keys.length ≤ inheritances state :=
          List.single_le_sum (fun _ _ => Nat.zero_le _) _
            (mem_map_of_mem (SortedMap.mem_toList_iff.mpr hfind))
        exact (Counted.forM _ (ih _)).mono (Nat.mul_le_mul_right _ hedges)

/-- For any roles, the counted validation ends as the plain one does, after a number of
calls that a fixed polynomial in the roles and the edges bounds. -/
theorem validateRoles_calls_le :
    (validateRolesCounted state 0).1 = validateRoles state ∧
      (validateRolesCounted state 0).2 ≤
        state.roles.toList.length * (inheritances state + 1) ^ 16 := by
  have hrole : ∀ entry : CanonicalId × Role, Counted ((inheritances state + 1) ^ maxRoleDepth)
      (validateRole state entry.1 entry.2) (validateRoleCounted state entry.1 entry.2) :=
    fun entry => (counted_ofExcept.bind (counted_ofExcept.bind (counted_ofExcept.bind
      (counted_validateRoleDepth state maxRoleDepth [] entry.1)))).mono (by omega)
  have h := Counted.forM state.roles.toList hrole 0
  rwa [Nat.zero_add] at h

end Rrflow.Security

import Rrflow.Security.Policy

/-!
What an authorization decision means.

The abstract side has no walk and no order: a principal holds the grants written
on it and those of every role it reaches by inheritance, and the decision is made
by the grants that apply with the longest resource prefix.
`compileAuthorization_ok_iff` says that the compiled decision is this one, for
every state that passes validation.
-/

namespace Rrflow.Security

open Checks Contract Relation List SortedMap

variable {principal : Principal} {resource : ResourcePath}

/-- Role `a` inherits from role `b`. -/
def SecurityState.Inherits (state : SecurityState) (a b : CanonicalId) : Prop :=
  ∃ role, state.roles.find? a = some role ∧ b ∈ role.inherits.keys

/-- The principal has the grant itself or by a role it reaches. -/
def SecurityState.Holds (state : SecurityState) (principal : Principal) (grant : ResourceGrant) :
    Prop :=
  grant ∈ principal.grants ∨
    ∃ start ∈ principal.roleIds.keys, ∃ roleId role, ReflTransGen state.Inherits start roleId ∧
      state.roles.find? roleId = some role ∧ grant ∈ role.grants

def Principal.ActiveAt (principal : Principal) (at_ : Nat) : Prop :=
  principal.disabled = false ∧ principal.notBeforeUnixMs ≤ at_ ∧ at_ < principal.expiresAtUnixMs

/-- The grant is for the action and its prefix is a prefix of the resource. -/
def ResourceGrant.Covers (grant : ResourceGrant) (action : SecurityAction)
    (resource : ResourcePath) : Prop :=
  grant.action = action ∧ grant.resourcePrefix.segments <+: resource.segments

/-- Among a set of grants, one that covers the resource with the longest
prefix. -/
structure MostSpecific (holds : ResourceGrant → Prop) (action : SecurityAction)
    (resource : ResourcePath) (grant : ResourceGrant) : Prop where
  held : holds grant
  covers : grant.Covers action resource
  longest : ∀ other, holds other → other.Covers action resource →
    other.resourcePrefix.segments.length ≤ grant.resourcePrefix.segments.length

theorem validate_roles {state : SecurityState} (h : state.validate = .ok ()) {a : CanonicalId}
    {role : Role} (hrole : state.roles.find? a = some role) :
    ∀ b ∈ role.inherits.keys, (state.roles.find? b).isSome := by
  obtain ⟨_, -, h⟩ := bind_eq_ok.mp h
  obtain ⟨_, -, h⟩ := bind_eq_ok.mp h
  obtain ⟨_, hroles, -⟩ := bind_eq_ok.mp h
  have hvalid := forM_eq_ok.mp hroles (a, role) (mem_toList_iff.mpr hrole)
  obtain ⟨_, -, hvalid⟩ := bind_eq_ok.mp hvalid
  obtain ⟨_, -, hvalid⟩ := bind_eq_ok.mp hvalid
  obtain ⟨_, htargets, -⟩ := bind_eq_ok.mp hvalid
  intro b hb
  exact (ensure_eq_ok.mp htargets b hb).2

theorem validate_roleIds {state : SecurityState} (h : state.validate = .ok ())
    {principalId : CanonicalId} (hprincipal : state.principals.find? principalId = some principal) :
    ∀ role ∈ principal.roleIds.keys, (state.roles.find? role).isSome := by
  obtain ⟨_, -, h⟩ := bind_eq_ok.mp h
  obtain ⟨_, hprincipals, -⟩ := bind_eq_ok.mp h
  have hvalid := forM_eq_ok.mp hprincipals (principalId, principal) (mem_toList_iff.mpr hprincipal)
  obtain ⟨_, -, hvalid⟩ := bind_eq_ok.mp hvalid
  obtain ⟨_, -, hvalid⟩ := bind_eq_ok.mp hvalid
  exact ensure_eq_ok.mp hvalid

/-- The successors and the grants of a role, empty where there is none. -/
def SecurityState.roleInherits (state : SecurityState) (id : CanonicalId) : List CanonicalId :=
  (state.roles.find? id).elim [] fun role => role.inherits.keys

def SecurityState.roleGrants (state : SecurityState) (id : CanonicalId) : List ResourceGrant :=
  (state.roles.find? id).elim [] Role.grants

theorem mem_roleInherits {state : SecurityState} {a b : CanonicalId} :
    b ∈ state.roleInherits a ↔ state.Inherits a b := by
  unfold SecurityState.roleInherits SecurityState.Inherits
  cases state.roles.find? a with
  | none => simp
  | some role => simp

theorem mem_roleGrants {state : SecurityState} {id : CanonicalId} {grant : ResourceGrant} :
    grant ∈ state.roleGrants id ↔
      ∃ role, state.roles.find? id = some role ∧ grant ∈ role.grants := by
  unfold SecurityState.roleGrants
  cases state.roles.find? id with
  | none => simp
  | some role => simp

/-- The walk terminates and collects exactly the grants the principal holds. -/
theorem exists_collectGrants {state : SecurityState} (h : state.validate = .ok ())
    {principalId : CanonicalId} (hprincipal : state.principals.find? principalId = some principal) :
    ∃ grants, (∀ fuel, state.roles.toList.length < fuel →
        collectGrants fuel state principal = .ok grants) ∧
      ∀ grant, grant ∈ grants ↔ state.Holds principal grant := by
  have hmem : ∀ id, id ∈ state.roles.keys ↔ (state.roles.find? id).isSome := fun id => by
    rw [mem_keys_iff, Option.isSome_iff_exists]
  have hexpand : ∀ id ∈ state.roles.keys,
      expandRole state id = .ok (state.roleGrants id, state.roleInherits id) := by
    intro id hid
    obtain ⟨role, hrole⟩ := Option.isSome_iff_exists.mp ((hmem id).mp hid)
    rw [expandRole, SecurityState.roleGrants, SecurityState.roleInherits, hrole]
    rfl
  have hclosed : ∀ id ∈ state.roles.keys, state.roleInherits id ⊆ state.roles.keys := by
    intro id hid b hb
    obtain ⟨role, hrole, hb⟩ := mem_roleInherits.mp hb
    exact (hmem b).mpr (validate_roles h hrole b hb)
  have hstarts : principal.roleIds.keys ⊆ state.roles.keys := fun id hid =>
    (hmem id).mpr (validate_roleIds h hprincipal id hid)
  obtain ⟨after, hrun, hitems⟩ :=
    Walk.exists_visitAll hexpand hclosed hstarts principal.grants
  refine ⟨after.items, ?_, ?_⟩
  · intro fuel hfuel
    rw [collectGrants, hrun fuel (by simpa [SortedMap.keys] using hfuel)]
    rfl
  · intro grant
    have hreaches : Walk.Reaches state.roleInherits = ReflTransGen state.Inherits := by
      unfold Walk.Reaches
      congr 1
      funext a b
      exact propext mem_roleInherits
    rw [hitems, SecurityState.Holds, hreaches]
    simp only [mem_roleGrants]
    refine or_congr_right (exists_congr fun start => and_congr_right fun _ =>
      exists_congr fun roleId => ?_)
    exact exists_and_left.symm

/-! ### The decision -/

theorem resourceHasPrefix_iff {grantPrefix : ResourcePath} :
    resourceHasPrefix resource grantPrefix = true ↔ grantPrefix.segments <+: resource.segments := by
  rw [resourceHasPrefix, Bool.and_eq_true, decide_eq_true_eq, beq_iff_eq, prefix_iff_eq_take]
  constructor
  · exact fun h => h.2.symm
  · intro h
    refine ⟨?_, h.symm⟩
    rw [h, length_take]
    omega

theorem grantApplies_iff {action : SecurityAction} {grant : ResourceGrant} :
    grantApplies action resource grant = true ↔ grant.Covers action resource := by
  rw [grantApplies, Bool.and_eq_true, beq_iff_eq, resourceHasPrefix_iff]
  rfl

theorem requireActivePrincipal_eq_ok {at_ : Nat} {u : Unit} :
    requireActivePrincipal principal at_ = .ok u ↔ principal.ActiveAt at_ :=
  ensure_eq_ok

/-- The decision depends on the set of the grants only. -/
theorem selectPolicy_eq_ok {action : SecurityAction} {grants : List ResourceGrant}
    {policy : Option DataPolicy} :
    selectPolicy action resource grants = .ok policy ↔
      (∃ grant, MostSpecific (· ∈ grants) action resource grant) ∧
        ∀ grant, MostSpecific (· ∈ grants) action resource grant → grant.dataPolicy = policy := by
  unfold selectPolicy
  cases hmax : ((grants.filter (grantApplies action resource)).map
      fun grant => grant.resourcePrefix.segments.length).max? with
  | none =>
    rw [max?_eq_none_iff, map_eq_nil_iff, filter_eq_nil_iff] at hmax
    simp only [reduceCtorEq, false_iff, not_and]
    rintro ⟨grant, hgrant⟩
    exact absurd (grantApplies_iff.mpr hgrant.covers) (hmax grant hgrant.held)
  | some specificity =>
    rw [max?_eq_some_iff] at hmax
    simp only [mem_map, mem_filter, grantApplies_iff] at hmax
    obtain ⟨⟨longest, ⟨hlongest, hcovers⟩, hlength⟩, hbound⟩ := hmax
    -- the selected grants are the most specific ones
    have hselected : ∀ grant, grant ∈ grants.filter (fun grant =>
        grantApplies action resource grant && grant.resourcePrefix.segments.length == specificity) ↔
        MostSpecific (· ∈ grants) action resource grant := by
      intro grant
      rw [mem_filter, Bool.and_eq_true, grantApplies_iff, beq_iff_eq]
      constructor
      · rintro ⟨hmem, hgrant, hlen⟩
        refine ⟨hmem, hgrant, fun other hother hothers => ?_⟩
        rw [hlen]
        exact hbound _ ⟨other, ⟨hother, hothers⟩, rfl⟩
      · intro hgrant
        refine ⟨hgrant.held, hgrant.covers, le_antisymm ?_ ?_⟩
        · exact hbound _ ⟨grant, ⟨hgrant.held, hgrant.covers⟩, rfl⟩
        · rw [← hlength]
          exact hgrant.longest longest hlongest hcovers
    dsimp only
    cases hfilter : grants.filter (fun grant => grantApplies action resource grant &&
        grant.resourcePrefix.segments.length == specificity) with
    | nil =>
      simp only [hfilter, not_mem_nil, false_iff] at hselected
      simp [hselected]
    | cons first rest =>
      simp only [hfilter, mem_cons] at hselected
      have hfirst := (hselected first).mp (Or.inl rfl)
      dsimp only
      split
      · rename_i hany
        obtain ⟨grant, hgrant, hne⟩ := any_eq_true.mp hany
        simp only [reduceCtorEq, false_iff, not_and]
        intro _ hall
        refine (bne_iff_ne.mp hne) ?_
        rw [hall grant ((hselected grant).mp (Or.inr hgrant)), hall first hfirst]
      · rename_i hany
        rw [any_eq_true] at hany
        push Not at hany
        rw [Except.ok.injEq]
        constructor
        · rintro rfl
          refine ⟨⟨first, hfirst⟩, fun grant hgrant => ?_⟩
          rcases (hselected grant).mpr hgrant with rfl | hgrant
          · rfl
          · exact not_not.mp fun hne => hany grant hgrant (bne_iff_ne.mpr hne)
        · rintro ⟨-, hall⟩
          exact hall first hfirst

/-- The compiled decision is the declared one: with any fuel above the number of
roles, the request is granted with `policy` exactly when the principal exists and
is active, the resource is well formed, and the most specific grants it holds all
carry `policy`. -/
theorem compileAuthorization_ok_iff
    (digest : Nat → CanonicalId → Nat → SecurityAction → ResourcePath → Option DataPolicy → String)
    {state : SecurityState} (hvalid : state.validate = .ok ()) (principalId : CanonicalId)
    (action : SecurityAction) (resource : ResourcePath) (at_ fuel : Nat)
    (hfuel : state.roles.toList.length < fuel) (policy : Option DataPolicy) :
    (∃ authorization, compileAuthorization digest fuel state principalId action resource at_ =
        .ok authorization ∧ authorization.dataPolicy = policy) ↔
      ∃ principal, state.principals.find? principalId = some principal ∧
        principal.ActiveAt at_ ∧ resource.validate = .ok () ∧
        (∃ grant, MostSpecific (state.Holds principal) action resource grant) ∧
        ∀ grant, MostSpecific (state.Holds principal) action resource grant →
          grant.dataPolicy = policy := by
  unfold compileAuthorization
  cases hprincipal : state.principals.find? principalId with
  | none => simp
  | some principal =>
    obtain ⟨grants, hcollect, hholds⟩ := exists_collectGrants hvalid hprincipal
    have hsame : (fun grant => grant ∈ grants) = state.Holds principal :=
      funext fun grant => propext (hholds grant)
    have hresource : fromContract resource.validate = .ok () ↔ resource.validate = .ok () := by
      unfold fromContract
      cases resource.validate <;> simp [Except.mapError]
    simp only [hcollect fuel hfuel, bind_eq_ok, requireActivePrincipal_eq_ok, pure,
      Except.pure, Except.ok.injEq, exists_eq_left', Option.some.injEq]
    constructor
    · rintro ⟨_, ⟨_, hactive, _, hwell, policy', hselect, rfl⟩, rfl⟩
      rw [selectPolicy_eq_ok, hsame] at hselect
      exact ⟨hactive, hresource.mp hwell, hselect⟩
    · rintro ⟨hactive, hwell, hselect⟩
      rw [← hsame, ← selectPolicy_eq_ok] at hselect
      exact ⟨_, ⟨(), hactive, (), hresource.mpr hwell, policy, hselect, rfl⟩, rfl⟩

namespace Sample

def mainInstance : ResourceId := ⟨.«instance», ⟨"main", by decide⟩⟩

/-- A principal with two roles that inherit from the same one. -/
def state : SecurityState where
  formatVersion := 1
  revision := 1
  principals := empty.insert ⟨"alice", by decide⟩
    { id := ⟨"alice", by decide⟩, kind := .user
      credentialSha256 := "0000000000000000000000000000000000000000000000000000000000000000"
      notBeforeUnixMs := 1, expiresAtUnixMs := 100, disabled := false, grants := []
      roleIds := (empty.insert ⟨"editor", by decide⟩ ()).insert ⟨"viewer", by decide⟩ () }
  roles := ((empty.insert ⟨"base", by decide⟩
      { id := ⟨"base", by decide⟩
        grants := [{ action := .queryExecute, resourcePrefix := ⟨[mainInstance]⟩ }] }).insert
    ⟨"editor", by decide⟩
      { id := ⟨"editor", by decide⟩, inherits := empty.insert ⟨"base", by decide⟩ ()
        grants := [] }).insert
    ⟨"viewer", by decide⟩
      { id := ⟨"viewer", by decide⟩, inherits := empty.insert ⟨"base", by decide⟩ ()
        grants := [] }

end Sample

theorem compileAuthorization_ok_iff_diamond :
    ∃ principal, Sample.state.principals.find? ⟨"alice", by decide⟩ = some principal ∧
      ∃ grant, MostSpecific (Sample.state.Holds principal) .queryExecute ⟨[Sample.mainInstance]⟩
        grant := by
  have hok : (compileAuthorization (fun _ _ _ _ _ _ => "") 4 Sample.state ⟨"alice", by decide⟩
      .queryExecute ⟨[Sample.mainInstance]⟩ 5).map Authorization.dataPolicy = .ok none := by
    decide +kernel
  cases hrun : compileAuthorization (fun _ _ _ _ _ _ => "") 4 Sample.state ⟨"alice", by decide⟩
      .queryExecute ⟨[Sample.mainInstance]⟩ 5 with
  | error e =>
    rw [hrun] at hok
    cases hok
  | ok authorization =>
    rw [hrun] at hok
    obtain ⟨principal, hfind, -, -, hgrant, -⟩ :=
      (compileAuthorization_ok_iff (fun _ _ _ _ _ _ => "") (by decide +kernel) _ _ _ _ 4
        (by decide +kernel) none).mp ⟨authorization, hrun, Except.ok.inj hok⟩
    exact ⟨principal, hfind, hgrant⟩

/-- A path with two instances is refused, although the grant on its first segment
covers it. -/
theorem compileAuthorization_malformed_resource :
    Sample.state.validate = .ok () ∧
    (∃ principal, Sample.state.principals.find? ⟨"alice", by decide⟩ = some principal ∧
      principal.ActiveAt 5 ∧
      (∃ grant, MostSpecific (Sample.state.Holds principal) .queryExecute
        ⟨[Sample.mainInstance, Sample.mainInstance]⟩ grant) ∧
      ∀ grant, MostSpecific (Sample.state.Holds principal) .queryExecute
        ⟨[Sample.mainInstance, Sample.mainInstance]⟩ grant → grant.dataPolicy = none) ∧
    ∀ fuel, (compileAuthorization (fun _ _ _ _ _ _ => "") fuel Sample.state ⟨"alice", by decide⟩
      .queryExecute ⟨[Sample.mainInstance, Sample.mainInstance]⟩ 5).isOk = false := by
  have hvalid : Sample.state.validate = .ok () := by decide +kernel
  refine ⟨hvalid, ?_, fun fuel => rfl⟩
  have hdecided : (Sample.state.principals.find? ⟨"alice", by decide⟩).map (fun principal =>
      (decide (requireActivePrincipal principal 5 = .ok ()),
        collectGrants 4 Sample.state principal >>= selectPolicy .queryExecute
          ⟨[Sample.mainInstance, Sample.mainInstance]⟩)) = some (true, .ok none) := by
    decide +kernel
  obtain ⟨principal, hfind, hprincipal⟩ := Option.map_eq_some_iff.mp hdecided
  rw [Prod.mk.injEq, decide_eq_true_eq, bind_eq_ok] at hprincipal
  obtain ⟨hactive, grants, hcollect, hselect⟩ := hprincipal
  obtain ⟨grants', hcollect', hholds⟩ := exists_collectGrants hvalid hfind
  rw [hcollect' 4 (by decide +kernel), Except.ok.injEq] at hcollect
  rw [selectPolicy_eq_ok, ← hcollect, funext fun grant => propext (hholds grant)] at hselect
  exact ⟨principal, hfind, requireActivePrincipal_eq_ok.mp hactive, hselect⟩

end Rrflow.Security

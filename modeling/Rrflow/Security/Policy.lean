import Rrflow.Contract.Resource
import Rrflow.Kernel.Value
import Rrflow.Lib.SortedMap
import Rrflow.Lib.Walk

/-!
The security state: principals, roles, grants and data policies, and the
compilation of one authorization decision.

`validate` is the gate of every stored state. `compileAuthorization` gathers the
grants of a principal and of the roles it holds, directly or by inheritance, and
decides by the most specific ones that apply. The walk over the roles carries
fuel; any fuel above the number of roles gives the same decision.
-/

namespace Rrflow.Security

open Checks Contract Kernel

def securityFormat : Nat := 1
def maxPrincipals : Nat := 4096
def maxRoles : Nat := 1024
def maxGrantsPerPrincipal : Nat := 256
def maxRoleDepth : Nat := 16
def maxIdentityBindings : Nat := 4096
def maxJwtIssuers : Nat := 32

inductive Error
  | invalid (message : String)
  | principalNotFound
  | permissionDenied
  deriving DecidableEq, Repr

/-! ### Data policies and grants -/

structure PolicyPredicate where
  field : String
  value : RuntimeValue
  deriving DecidableEq

structure DataPolicy where
  tenant : Option PolicyPredicate := none
  rows : List PolicyPredicate := []
  allowedFields : Option (SortedMap String Unit) := none
  deriving DecidableEq

structure ResourceGrant where
  action : SecurityAction
  resourcePrefix : ResourcePath
  dataPolicy : Option DataPolicy := none
  deriving DecidableEq

def DataPolicy.predicates (policy : DataPolicy) : List PolicyPredicate :=
  policy.tenant.toList ++ policy.rows

def validatePolicyField (field : String) : Except Error Unit :=
  ensure (field ≠ "" ∧ field.utf8ByteSize ≤ 256 ∧
    field.toList.all (fun c => c.isAlphanum || c == '_' || c == '.') = true)
    (.invalid "security policy field is invalid")

def validatePolicyValue : RuntimeValue → Except Error Unit
  | .null | .bool _ | .integer _ | .unsigned _ | .string _ => .ok ()
  | _ => .error (.invalid "security predicates require scalar query values")

/-- Checks the members of a list in turn and that none occurs before; `seen` are
the members already checked. -/
def validateDistinct {α κ : Type} [DecidableEq κ] (check : α → Except Error Unit) (identity : α → κ)
    (repeated : Error) (members : List α) : Except Error Unit := do
  let _ ← members.foldlM (fun seen member => do
    check member
    ensure (identity member ∉ seen) repeated
    return identity member :: seen) []

def DataPolicy.validate (policy : DataPolicy) : Except Error Unit := do
  validateDistinct (fun predicate => do
      validatePolicyField predicate.field
      validatePolicyValue predicate.value) PolicyPredicate.field
    (.invalid "data policy predicate fields must be unique") policy.predicates
  match policy.allowedFields with
  | none => pure ()
  | some allowed => do
      ensure (allowed.keys ≠ [] ∧ allowed.keys.length ≤ 256)
        (.invalid "field policy must contain 1..=256 fields")
      allowed.keys.forM validatePolicyField
  ensure (policy.tenant ≠ none ∨ policy.rows ≠ [] ∨ policy.allowedFields ≠ none)
    (.invalid "empty data policy is not permitted")

/-- The message of a contract error is kept. -/
def fromContract (result : Except String Unit) : Except Error Unit := result.mapError .invalid

def validateGrant (grant : ResourceGrant) : Except Error Unit := do
  fromContract grant.resourcePrefix.validate
  match grant.dataPolicy with
  | none => pure ()
  | some policy => policy.validate

/-! ### Principals and roles -/

inductive PrincipalKind
  | user | service | node
  deriving DecidableEq, Repr

structure Principal where
  id : CanonicalId
  kind : PrincipalKind
  credentialSha256 : String
  credentialRevision : Nat := 1
  notBeforeUnixMs : Nat
  expiresAtUnixMs : Nat
  disabled : Bool
  roleIds : SortedMap CanonicalId Unit := ∅
  grants : List ResourceGrant

structure Role where
  id : CanonicalId
  inherits : SortedMap CanonicalId Unit := ∅
  grants : List ResourceGrant

structure JwtIssuer where
  id : CanonicalId
  issuer : String
  audience : String
  keyId : CanonicalId
  signingKeySha256 : String
  notBeforeUnixMs : Nat
  expiresAtUnixMs : Nat

structure IdentityBinding where
  id : CanonicalId
  issuer : String
  subject : String
  audience : String
  principalId : CanonicalId

structure SecurityState where
  formatVersion : Nat
  revision : Nat
  principals : SortedMap CanonicalId Principal
  roles : SortedMap CanonicalId Role := ∅
  identityBindings : SortedMap CanonicalId IdentityBinding := ∅
  jwtIssuers : SortedMap CanonicalId JwtIssuer := ∅

def validateSha256 (value : String) : Except Error Unit :=
  ensure (value.utf8ByteSize = 64 ∧
    value.toList.all (fun c => c.isDigit || ('a' ≤ c && c ≤ 'f')) = true)
    (.invalid "SHA-256 must be lowercase hexadecimal")

/-- The grants of a principal or role are valid and distinct. -/
def validateGrants (repeated : Error) (grants : List ResourceGrant) : Except Error Unit :=
  validateDistinct validateGrant id repeated grants

def Principal.validate (principal : Principal) : Except Error Unit := do
  validateSha256 principal.credentialSha256
  ensure (principal.credentialRevision ≠ 0 ∧ principal.notBeforeUnixMs ≠ 0
      ∧ principal.notBeforeUnixMs < principal.expiresAtUnixMs
      ∧ ¬(principal.grants = [] ∧ principal.roleIds.keys = [])
      ∧ principal.grants.length ≤ maxGrantsPerPrincipal)
    (.invalid "principal validity or grant bounds are invalid")
  validateGrants (.invalid "principal grants must be unique") principal.grants

/-- Follows the inherited roles of `roleId`; `visiting` are the roles on the way
to it and `depth` is how many more may be entered. -/
def validateRoleDepth (state : SecurityState) :
    Nat → List CanonicalId → CanonicalId → Except Error Unit
  | 0, _, _ => .error (.invalid "role inheritance is cyclic or exceeds its depth bound")
  | depth + 1, visiting, roleId =>
    if roleId ∈ visiting then
      .error (.invalid "role inheritance is cyclic or exceeds its depth bound")
    else
      match state.roles.find? roleId with
      | none => .error (.invalid "role inheritance target is missing")
      | some role =>
        role.inherits.keys.forM (validateRoleDepth state depth (roleId :: visiting))

variable (state : SecurityState)

def validateRole (id : CanonicalId) (role : Role) : Except Error Unit := do
  ensure (id = role.id ∧ ¬(role.inherits.keys = [] ∧ role.grants = [])
      ∧ role.grants.length ≤ maxGrantsPerPrincipal)
    (.invalid "role identity or grant bounds are invalid")
  validateGrants (.invalid "role grants must be unique") role.grants
  ensure (∀ inherited ∈ role.inherits.keys, inherited ≠ id ∧ (state.roles.find? inherited).isSome)
    (.invalid "role inheritance target is invalid")
  validateRoleDepth state maxRoleDepth [] id

def validateRoles : Except Error Unit :=
  state.roles.toList.forM fun entry => validateRole state entry.1 entry.2

/-- White space of Unicode, which trimming removes. -/
def isWhiteSpace (c : Char) : Bool :=
  (9 ≤ c.toNat && c.toNat ≤ 13) || (0x2000 ≤ c.toNat && c.toNat ≤ 0x200A) ||
    [0x20, 0x85, 0xA0, 0x1680, 0x2028, 0x2029, 0x202F, 0x205F, 0x3000].contains c.toNat

def boundedIdentity (value : String) : Bool :=
  value.toList.any (fun c => !isWhiteSpace c) && value.utf8ByteSize ≤ 1024
    && !value.toList.contains (Char.ofNat 0)

def validateIdentityBindings : Except Error Unit := do
  let _ ← state.identityBindings.toList.foldlM (fun tuples entry => do
    let binding := entry.2
    let tuple := (binding.issuer, binding.subject, binding.audience)
    ensure (entry.1 = binding.id ∧ (state.principals.find? binding.principalId).isSome
        ∧ boundedIdentity binding.issuer = true ∧ boundedIdentity binding.subject = true
        ∧ boundedIdentity binding.audience = true ∧ tuple ∉ tuples)
      (.invalid "third-party identity binding is invalid")
    return tuple :: tuples) []

def validateJwtIssuers : Except Error Unit := do
  let _ ← state.jwtIssuers.toList.foldlM (fun keyIds entry => do
    let issuer := entry.2
    validateSha256 issuer.signingKeySha256
    ensure (entry.1 = issuer.id ∧ boundedIdentity issuer.issuer = true
        ∧ boundedIdentity issuer.audience = true ∧ issuer.notBeforeUnixMs ≠ 0
        ∧ issuer.notBeforeUnixMs < issuer.expiresAtUnixMs ∧ issuer.keyId ∉ keyIds)
      (.invalid "JWT issuer is invalid")
    return issuer.keyId :: keyIds) []

def validatePrincipal (id : CanonicalId) (principal : Principal) : Except Error Unit := do
  principal.validate
  ensure (id = principal.id) (.invalid "principal map identity differs")
  ensure (∀ role ∈ principal.roleIds.keys, (state.roles.find? role).isSome)
    (.invalid "principal references an unknown role")

def SecurityState.validate : Except Error Unit := do
  ensure (state.formatVersion = securityFormat ∧ state.revision ≠ 0
      ∧ state.principals.toList ≠ [] ∧ state.principals.toList.length ≤ maxPrincipals
      ∧ state.roles.toList.length ≤ maxRoles
      ∧ state.identityBindings.toList.length ≤ maxIdentityBindings
      ∧ state.jwtIssuers.toList.length ≤ maxJwtIssuers)
    (.invalid "unsupported, empty, or oversized security state")
  state.principals.toList.forM fun entry => validatePrincipal state entry.1 entry.2
  validateRoles state
  validateIdentityBindings state
  validateJwtIssuers state

structure Authorization where
  principalId : CanonicalId
  principalKind : PrincipalKind
  action : SecurityAction
  resource : ResourcePath
  policyRevision : Nat
  credentialRevision : Nat
  dataPolicy : Option DataPolicy
  authorizationSha256 : String

def requireActivePrincipal (principal : Principal) (at_ : Nat) : Except Error Unit :=
  ensure (principal.disabled = false ∧ principal.notBeforeUnixMs ≤ at_
    ∧ at_ < principal.expiresAtUnixMs) .permissionDenied

def resourceHasPrefix (resource grantPrefix : ResourcePath) : Bool :=
  grantPrefix.segments.length ≤ resource.segments.length &&
    resource.segments.take grantPrefix.segments.length == grantPrefix.segments

/-- What the walk takes from one role. -/
def expandRole (roleId : CanonicalId) : Except Error (List ResourceGrant × List CanonicalId) :=
  match state.roles.find? roleId with
  | none => .error (.invalid "principal references an unknown role")
  | some role => .ok (role.grants, role.inherits.keys)

/-- The grants of a principal and of its roles, in the order of the walk. -/
def collectGrants (fuel : Nat) (state : SecurityState) (principal : Principal) :
    Except Error (List ResourceGrant) := do
  let seen ← Walk.visitAll (expandRole state) fuel principal.roleIds.keys ⟨[], principal.grants⟩
  return seen.items

/-- Whether a grant is about the action and covers the resource. -/
def grantApplies (action : SecurityAction) (resource : ResourcePath) (grant : ResourceGrant) :
    Bool :=
  grant.action == action && resourceHasPrefix resource grant.resourcePrefix

/-- The decision between the collected grants. -/
def selectPolicy (action : SecurityAction) (resource : ResourcePath) (grants : List ResourceGrant) :
    Except Error (Option DataPolicy) :=
  match ((grants.filter (grantApplies action resource)).map
      fun grant => grant.resourcePrefix.segments.length).max? with
  | none => .error .permissionDenied
  | some specificity =>
    match grants.filter fun grant => grantApplies action resource grant &&
        grant.resourcePrefix.segments.length == specificity with
    | [] => .error .permissionDenied
    | first :: rest =>
      if rest.any fun grant => grant.dataPolicy != first.dataPolicy then
        .error (.invalid "equally specific grants have ambiguous data policies")
      else .ok first.dataPolicy

/-- The digest stands for the hash of the serialized decision. -/
def compileAuthorization
    (digest : Nat → CanonicalId → Nat → SecurityAction → ResourcePath → Option DataPolicy → String)
    (fuel : Nat) (state : SecurityState) (principalId : CanonicalId) (action : SecurityAction)
    (resource : ResourcePath) (at_ : Nat) : Except Error Authorization := do
  match state.principals.find? principalId with
  | none => .error .principalNotFound
  | some principal => do
      requireActivePrincipal principal at_
      fromContract resource.validate
      let grants ← collectGrants fuel state principal
      let dataPolicy ← selectPolicy action resource grants
      return {
        principalId := principal.id
        principalKind := principal.kind
        action
        resource
        policyRevision := state.revision
        credentialRevision := principal.credentialRevision
        dataPolicy
        authorizationSha256 := digest state.revision principal.id principal.credentialRevision
          action resource dataPolicy }

end Rrflow.Security

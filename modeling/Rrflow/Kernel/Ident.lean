import Rrflow.Lib.Checks

/-!
Identifiers of the runtime.

An identifier that can reach a public projection holds the canonical grammar in
its type; the rest are non-empty texts without a NUL. Both are subtypes of the
texts, so they inherit their order, which is the order in which every map of the
runtime is iterated. Times are milliseconds since the epoch.
-/

namespace Rrflow.Kernel

open Checks

inductive Error
  | emptyIdentifier (kind : String)
  | separatorInIdentifier (kind value : String)
  | nonCanonicalIdentifier (kind value problem : String)
  | invalidValidityWindow (validFrom validTo : Nat)
  | supersessionPairMismatch
  | invalidSupersessionOrder
  | sequenceOverflow
  | invalidRuntime (reason : String)
  | panicked (message : String)
  deriving DecidableEq, Repr

def invalid {α : Type} (reason : String) : Except Error α := .error (.invalidRuntime reason)

def maxCanonicalIdBytes : Nat := 128

def isCanonicalAt (first : Bool) (c : Char) : Bool :=
  c.isLower || c.isDigit || (!first && (c == '-' || c == '_' || c == '.'))

/-- Why a text is not a canonical identifier, or `none` when it is. -/
def canonicalIdProblem (value : String) : Option String :=
  if value.utf8ByteSize = 0 ∨ maxCanonicalIdBytes < value.utf8ByteSize then
    some "canonical id length must be in 1..=128 bytes"
  else if (value.toList.take 1).all (isCanonicalAt true) ∧
      (value.toList.drop 1).all (isCanonicalAt false) then none
  else some ("canonical id must start with lowercase ASCII or a digit and contain only lowercase " ++
    "ASCII, digits, '-', '_', or '.'")

def checkText (kind value : String) : Except Error Unit := do
  ensure (value ≠ "") (.emptyIdentifier kind)
  ensure (Char.ofNat 0 ∉ value.toList) (.separatorInIdentifier kind value)

def checkCanonical (kind value : String) : Except Error Unit := do
  ensure (value ≠ "") (.emptyIdentifier kind)
  match canonicalIdProblem value with
  | some problem => .error (.nonCanonicalIdentifier kind value problem)
  | none => .ok ()

/-- A text that passed `checkText`. -/
abbrev Text (kind : String) := { value : String // checkText kind value = .ok () }

/-- A text that passed `checkCanonical`. -/
abbrev Canonical (kind : String) := { value : String // checkCanonical kind value = .ok () }

abbrev Subject := Canonical "subject"

abbrev Predicate := Canonical "predicate"

abbrev ScopeId := Text "runtime scope"

abbrev RuntimeType := Canonical "runtime type"

def eventIdStart : String := "cursor:"

/-- A canonical identifier, or the cursor of an event. The colon of the latter is
outside the canonical grammar. -/
abbrev RuntimeId := { value : String //
  checkCanonical "runtime id" value = .ok () ∨ ∃ cursor : Nat, value = eventIdStart ++ toString cursor }

namespace RuntimeId

/-- The identity of the event that its commit placed at `cursor`. -/
def event (cursor : Nat) : RuntimeId := ⟨eventIdStart ++ toString cursor, .inr ⟨cursor, rfl⟩⟩

end RuntimeId

/-- A typed reference inside one scope, ordered by kind and then by identity. -/
abbrev RuntimeRef := RuntimeType ×ₗ RuntimeId

variable (reference : RuntimeRef)

namespace RuntimeRef

def of (kind : RuntimeType) (id : RuntimeId) : RuntimeRef := toLex (kind, id)

def kind : RuntimeType := (ofLex reference).1

def id : RuntimeId := (ofLex reference).2

def event (kind : RuntimeType) (cursor : Nat) : RuntimeRef := of kind (.event cursor)

@[simp] theorem kind_of (kind : RuntimeType) (id : RuntimeId) : (of kind id).kind = kind := rfl

@[simp] theorem id_of (kind : RuntimeType) (id : RuntimeId) : (of kind id).id = id := rfl

def text : String := reference.kind.val ++ "/" ++ reference.id.val

end RuntimeRef

/-- A window with an end is not empty. -/
def validateWindow (validFrom : Nat) (validTo : Option Nat) : Except Error Unit :=
  match validTo with
  | some validTo => ensure (validFrom < validTo) (.invalidValidityWindow validFrom validTo)
  | none => .ok ()

/-- Windows are half open: at their end they are over. -/
def validAtWindow (validFrom : Nat) (validTo : Option Nat) (at_ : Nat) : Bool :=
  decide (validFrom ≤ at_) && validTo.all (fun validTo => decide (at_ < validTo))

end Rrflow.Kernel

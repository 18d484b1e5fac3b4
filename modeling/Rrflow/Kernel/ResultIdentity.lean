import Rrflow.Kernel.Ident

/-!
Identities of result rows.

An identity is a label and some components, each behind a colon. Colons and percent
signs inside a component are escaped, so that the components can be told apart; the
decoder takes a text back only if it is what the encoder writes.
-/

namespace Rrflow.Kernel.ResultIdentity

inductive Family
  | record | relation | event | series | geo | traversal
  deriving DecidableEq, Repr

def Family.label : Family → String
  | .record => "record"
  | .relation => "relation"
  | .event => "event"
  | .series => "series"
  | .geo => "geo"
  | .traversal => "traversal"

def escape (character : Char) : List Char :=
  if character = '%' then ['%', '2', '5']
  else if character = ':' then ['%', '3', 'A']
  else [character]

def appendComponent (out component : String) : String :=
  out ++ String.ofList (component.toList.flatMap escape)

def encode (family : Family) (components : List String) : String :=
  components.foldl (fun out component => appendComponent (out ++ ":") component) family.label

/-- A reference inside a path, without a family. -/
def reference (value : RuntimeRef) : String :=
  appendComponent (appendComponent "" value.kind.val ++ ":") value.id.val

def typed (family : Family) (value : RuntimeRef) : String :=
  encode family [value.kind.val, value.id.val]

end Rrflow.Kernel.ResultIdentity

import Rrflow.Kernel.ResultIdentity
import Rrflow.Lib.Breadth
import Rrflow.Query.ClaimRows
import Rrflow.Query.GraphState
import Rrflow.Store.VersionedRead

/-!
Traversals of the graph of a scope.

A traversal starts at a record and follows the relations of one kind, level by level,
up to a depth. It is evaluated over the changes that were read for it.
-/

namespace Rrflow.Query

open Kernel Store

inductive TraversalDirection
  | outgoing | incoming | both
  deriving DecidableEq, Repr

structure TraversalPlan where
  relation : RuntimeType
  start : RuntimeRef
  direction : TraversalDirection
  maxDepth : Nat
  deriving DecidableEq

/-- The node that a traversal reaches across a relation. -/
def successor (relation : RuntimeRelation) (current : RuntimeRef) (direction : TraversalDirection) :
    Option RuntimeRef :=
  match direction with
  | .outgoing => if relation.from_ = current then some relation.to_ else none
  | .incoming => if relation.to_ = current then some relation.from_ else none
  | .both =>
    if relation.from_ = current then some relation.to_
    else if relation.to_ = current then some relation.from_
    else none

def endpoints (direction : TraversalDirection) (relation : RuntimeRelation) : List RuntimeRef :=
  match direction with
  | .outgoing => [relation.from_]
  | .incoming => [relation.to_]
  | .both => if relation.from_ = relation.to_ then [relation.from_]
      else [relation.from_, relation.to_]

/-- The relations of a kind at each node, in the order of their references. -/
def incidentRelations (relations : SortedMap RuntimeRef RuntimeRelation) (kind : RuntimeType)
    (direction : TraversalDirection) : SortedMap RuntimeRef (List RuntimeRelation) :=
  ((relations.values.filter (·.reference.kind = kind)).flatMap fun relation =>
    (endpoints direction relation).map fun endpoint => (endpoint, relation)).foldl
      (fun incident entry => incident.push entry.1 entry.2) .empty

/-- The edges of a node: the relations that meet it with the nodes behind them. -/
def edgesOf (incident : SortedMap RuntimeRef (List RuntimeRelation))
    (direction : TraversalDirection) (current : RuntimeRef) : List (RuntimeRelation × RuntimeRef) :=
  ((incident.find? current).getD []).filterMap fun relation =>
    (successor relation current direction).map fun next => (relation, next)

def traversalRow (relationKind : RuntimeType) (start : RuntimeRef)
    (hop : Breadth.Hop RuntimeRef RuntimeRelation) : QueryRow where
  identity := ResultIdentity.encode .traversal [relationKind.val, start.kind.val, start.id.val,
    toString hop.far.depth, hop.edge.reference.id.val, hop.far.node.kind.val, hop.far.node.id.val]
  values := SortedMap.ofList [
    ("depth", .unsigned hop.far.depth),
    ("node_kind", .string hop.far.node.kind.val),
    ("node_id", .string hop.far.node.id.val),
    ("relation_kind", .string hop.edge.reference.kind.val),
    ("relation_id", .string hop.edge.reference.id.val),
    ("from_kind", .string hop.edge.from_.kind.val),
    ("from_id", .string hop.edge.from_.id.val),
    ("to_kind", .string hop.edge.to_.kind.val),
    ("to_id", .string hop.edge.to_.id.val),
    ("path", .list (hop.far.path.map fun node => .string (ResultIdentity.reference node)))]

/-- The search of a traversal. Each relation leads to at most two nodes, so that the
queue is empty after so many rounds. -/
def traversalSearch (relations : SortedMap RuntimeRef RuntimeRelation) (plan : TraversalPlan) :
    Breadth.Search RuntimeRef RuntimeRelation :=
  (Breadth.round (edgesOf (incidentRelations relations plan.relation plan.direction)
    plan.direction) plan.maxDepth)^[2 * relations.values.length + 1] (.init plan.start)

def traversalRows (changes : List RuntimeChange) (scope : ScopeId) (plan : TraversalPlan)
    (validAt knownAtCursor : Nat) : List QueryRow :=
  let active := activeGraphValues changes scope validAt knownAtCursor
  if active.1.contains plan.start then
    (traversalSearch active.2 plan).found.map (traversalRow plan.relation plan.start)
  else []

end Rrflow.Query

/-
# From positions to scopes and nodes

Every query starts from a position. It is resolved to the innermost scope around
it, and then to the innermost node, looked for from the node that defines the
scope. When that node does not reach as far as the position, the search starts
over from the module node.
-/

import CodeInsight.Query.Snapshot

namespace CodeInsight

/-- Why a query has no answer. -/
inductive QueryError where
  /-- The module scope does not reach as far as the position. -/
  | outsideScopes (pos : Position)
  deriving DecidableEq, Repr

namespace QueryError

/-- The position that was asked about. -/
def position : QueryError → Position
  | outsideScopes pos => pos

/-- What the host is told. -/
def message : QueryError → String
  | outsideScopes pos => "no scope contains position " ++ pos.render

end QueryError

/-- What a position stands for. -/
structure Place where
  scope : ScopeId
  node : Option NodeId
  deriving DecidableEq

namespace Facts

/-- The node from which nodes of a scope are looked for. -/
def searchStart (f : Facts) (scope : ScopeId) : NodeId :=
  ((f.scopes.scope? scope).bind (·.label.node)).getD Outline.root

/-- The innermost scope and the innermost node at a position. -/
def locate (f : Facts) (pos : Position) : Except QueryError Place :=
  match f.scopes.scopeAt? pos with
  | none => .error (.outsideScopes pos)
  | some scope =>
    let node := f.tree.innermost? (f.searchStart scope) pos
    .ok ⟨scope, node.or (f.tree.innermost? Outline.root pos)⟩

/-- The expression that a position stands for, if it stands for one. -/
def expressionOf? (f : Facts) (place : Place) : Option NodeId :=
  place.node.filter f.tree.hasValue

end Facts

end CodeInsight

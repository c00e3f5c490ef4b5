/-
# Answers to queries

A position on an expression is asked for the expression's values, their members
and their signatures. Any position is asked for the names visible there, which
is also what a query for members answers where no expression stands.
-/

import CodeInsight.Query.Place

namespace CodeInsight

namespace Facts

/-- Whether the names of a scope are offered at all. -/
def shows (f : Facts) (scope : ScopeId) : Bool :=
  f.preferences.includeBuiltins
    || (f.scopes.scope? scope).any fun region => region.label.kind ≠ .builtins

/-- The names bound in a scope and around it, inner names hiding outer ones. -/
def visibleFrom (f : Facts) (scope : ScopeId) : List Member :=
  let visible := ((f.scopes.ancestors scope).filter f.shows).flatMap f.scopes.namesOf
  (keepFirst Prod.fst [] visible).map fun (_, v) => Member.ofVariable v

end Facts

namespace Snapshot

/-- The possible types of an expression in a scope. -/
def evaluate (s : Snapshot) (scope : ScopeId) (node : NodeId) : List TypeInfo :=
  s.inference.typesOf ⟨s.toFacts, scope, node⟩

/-- The members of one type. A module is looked up by name, and has no members when it is not
found. -/
def membersOf (s : Snapshot) : TypeInfo → List Member
  | .module info => (s.modules.exports info.name).getD []
  | .classObject info | .classInstance info => info.members
  | type => s.inference.membersOf type

/-- The members of all types, merged by name. -/
def mergedMembers (s : Snapshot) (types : List TypeInfo) : List Member :=
  Member.merge (types.flatMap s.membersOf)

/-- The signatures of everything that an expression may be and that can be called. -/
def signaturesOf (s : Snapshot) (scope : ScopeId) (node : NodeId) : List Signature :=
  ((s.evaluate scope node).filter TypeInfo.isCallable).flatMap TypeInfo.signatures

/-- The members of the expression at a position, or the visible names where there is none. -/
def membersAt (s : Snapshot) (pos : Position) : Except QueryError (List Member) := do
  let place ← s.locate pos
  match s.expressionOf? place with
  | some node => return s.mergedMembers (s.evaluate place.scope node)
  | none => return s.visibleFrom place.scope

/-- The names visible at a position. -/
def itemsAt (s : Snapshot) (pos : Position) : Except QueryError (List Member) := do
  let place ← s.locate pos
  return s.visibleFrom place.scope

/-- The possible types of the expression at a position; none where there is no expression. -/
def valuesAt (s : Snapshot) (pos : Position) : Except QueryError (List TypeInfo) := do
  let place ← s.locate pos
  match s.expressionOf? place with
  | some node => return s.evaluate place.scope node
  | none => return []

/-- The signatures of the expression at a position. When it has none, or when there is no
expression, the callee of the call around the position answers, so that signatures stay in view
while arguments are being typed. -/
def signaturesAt (s : Snapshot) (pos : Position) : Except QueryError (List Signature) := do
  let place ← s.locate pos
  let own := match s.expressionOf? place with
    | some node => s.signaturesOf place.scope node
    | none => []
  if own.isEmpty then
    match place.node.bind s.tree.calleeAround? with
    | some callee => return s.signaturesOf place.scope callee
    | none => return []
  else
    return own

end Snapshot

end CodeInsight

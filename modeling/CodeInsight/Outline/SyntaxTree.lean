/-
# Syntax trees

A syntax tree tells where the statements, expressions and calls of a module are,
and nothing about its grammar. Its root is the module.
-/

import CodeInsight.Outline.Walk

namespace CodeInsight

/-- What a stretch of source is, as far as queries care. -/
inductive NodeKind where
  | module
  | functionDefinition
  | classDefinition
  /-- Any other statement. -/
  | statement
  /-- Something with a value: a name, an access to a member, a literal. -/
  | expression
  /-- A call; its first child is what is called. -/
  | call
  /-- The place of an expression that has not been typed yet. -/
  | emptyExpression
  | other
  deriving DecidableEq, Repr

namespace NodeKind

/-- Whether nodes of this kind have a value to ask for. -/
def hasValue : NodeKind → Bool
  | expression | call => true
  | _ => false

/-- Whether a search for the call around a node stops at this kind. -/
def endsStatement : NodeKind → Bool
  | module | functionDefinition | classDefinition | statement => true
  | _ => false

end NodeKind

/-- The handle of a node. -/
abbrev NodeId := RegionId NodeKind

/-- The syntax of one module. -/
abbrev SyntaxTree := Outline NodeKind

namespace SyntaxTree

/-- A tree of a module node alone. -/
def ofModule (span : Span) : SyntaxTree := Outline.ofRoot .module span

/-- The kind of a node. -/
def kind? (t : SyntaxTree) (id : NodeId) : Option NodeKind := (t.region? id).map (·.label)

/-- Whether a node has a value to ask for. -/
def hasValue (t : SyntaxTree) (id : NodeId) : Bool := (t.kind? id).any NodeKind.hasValue

/-- The node and those around it, as far as they belong to the same statement. -/
def withinStatement (t : SyntaxTree) (id : NodeId) : List NodeId :=
  (t.ancestors id).takeWhile fun node => (t.kind? node).any (!·.endsStatement)

/-- What is called by the nearest call around a node, within the node's own statement. -/
def calleeAround? (t : SyntaxTree) (id : NodeId) : Option NodeId := do
  let call ← (t.withinStatement id).find? fun node => t.kind? node = some .call
  (t.childrenOf call).head?

end SyntaxTree

end CodeInsight

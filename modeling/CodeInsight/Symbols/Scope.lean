/-
# Lexical scopes

A scope is a region of source with names bound in it. The names are kept in the
order in which they were first declared, and each stands for a variable.
-/

import CodeInsight.Outline.SyntaxTree

namespace CodeInsight

/-- What kind of region a scope covers. -/
inductive ScopeKind where
  /-- Names available everywhere without import. -/
  | builtins
  | module
  | classBody
  | functionBody
  deriving DecidableEq, Repr

/-- The handle of a variable: the number of variables declared before it. It is not bounded here.
Kept in 32 bits, handles are the same numbers in every tree of fewer than 2^32 variables. -/
structure VariableId where
  index : Nat
  deriving DecidableEq, Repr

/-- What a region of source says about names. -/
structure ScopeEntry where
  kind : ScopeKind
  name : String
  /-- The node that defines the scope. -/
  node : Option NodeId
  /-- The bound names, each once, in the order of their first declaration. -/
  bindings : List (String × VariableId)
  deriving DecidableEq

namespace ScopeEntry

/-- A scope without names. -/
def empty (kind : ScopeKind) (name : String) (node : Option NodeId) : ScopeEntry :=
  ⟨kind, name, node, []⟩

/-- The variable that a name stands for in this scope alone. -/
def lookup? (s : ScopeEntry) (name : String) : Option VariableId := s.bindings.lookup name

/-- The scope with one more name, behind those it has. -/
def bind (s : ScopeEntry) (name : String) (id : VariableId) : ScopeEntry :=
  { s with bindings := s.bindings ++ [(name, id)] }

end ScopeEntry

/-- The handle of a scope. -/
abbrev ScopeId := RegionId ScopeEntry

/-- A scope with its place among the others. -/
abbrev Scope := Region ScopeEntry

end CodeInsight

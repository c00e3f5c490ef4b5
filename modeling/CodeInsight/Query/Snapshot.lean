/-
# Snapshots

A snapshot is the result of analysing one version of a document. It holds the
facts found in the text and two sources to consult: inference, which knows types
of expressions, and an index of modules, which knows what other modules export.
The sources see the facts, never the snapshot they belong to.
-/

import CodeInsight.Symbols.ScopeTree

namespace CodeInsight

/-- What a host prefers to be offered. -/
structure Preferences where
  /-- Whether names of the built-ins scope are offered among the visible ones. -/
  includeBuiltins : Bool
  deriving DecidableEq, Repr

/-- Built-in names are offered unless the host says otherwise. -/
def Preferences.default : Preferences := ⟨true⟩

/-- What analysis found in one version of a document. -/
structure Facts where
  document : DocumentUri
  version : Version
  tree : SyntaxTree
  scopes : ScopeTree
  preferences : Preferences
  deriving DecidableEq

/-- An expression to evaluate: its node, the innermost scope around it, and the facts that node and
scope belong to. -/
structure ExpressionContext where
  facts : Facts
  scope : ScopeId
  node : NodeId

/-- A source of types. -/
structure Inference where
  /-- The possible types of an expression. -/
  typesOf : ExpressionContext → List TypeInfo
  /-- The members of a type that is neither a class, nor a value of one, nor a module. -/
  membersOf : TypeInfo → List Member

/-- Inference that knows nothing. -/
def Inference.silent : Inference := ⟨fun _ => [], fun _ => []⟩

/-- A source of what modules export. -/
structure ModuleIndex where
  /-- The exported members of a module, absent when the module cannot be found. -/
  exports : String → Option (List Member)

/-- The index that lists no module. -/
def ModuleIndex.empty : ModuleIndex := ⟨fun _ => none⟩

/-- The analysis of one version of a document, ready to answer questions. -/
structure Snapshot extends Facts where
  inference : Inference
  modules : ModuleIndex

namespace Snapshot

/-- A snapshot with nothing to consult. -/
def ofFacts (facts : Facts) : Snapshot :=
  { facts with inference := .silent, modules := .empty }

/-- A one-line description for logs. -/
def describe (s : Snapshot) : String :=
  "AnalysisSnapshot \x7b document: \"" ++ s.document
    ++ "\", version: " ++ toString s.version.toInt
    ++ ", nodes: " ++ toString s.tree.size
    ++ ", scopes: " ++ toString s.scopes.size
    ++ ", options: QueryOptions \x7b include_builtins: " ++ toString s.preferences.includeBuiltins
    ++ " \x7d \x7d"

end Snapshot

end CodeInsight

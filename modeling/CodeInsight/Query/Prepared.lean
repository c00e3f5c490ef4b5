/-
# Prepared analyses

An analysis prepared beforehand names everything that a snapshot consists of but
the document and the version, which it takes from the request. A source that is
left out knows nothing. A text of which nothing is known gets a module node and a
module scope that cover it from end to end.
-/

import CodeInsight.Query.Table
import CodeInsight.Text.LineTable

namespace CodeInsight

/-- The contents of a snapshot. -/
structure PreparedAnalysis where
  tree : SyntaxTree
  scopes : ScopeTree
  evaluation : Option EvaluationTable
  modules : Option ModuleTable
  /-- Whether built-in names are offered, if the analysis itself decides it. -/
  includeBuiltins : Option Bool

namespace PreparedAnalysis

/-- The analysis that finds nothing in a text. -/
def blank (text : List Char) : PreparedAnalysis :=
  let stop := (LineTable.ofText text .utf16).position text.length
  let extent : Span := ⟨Position.origin, stop⟩
  ⟨SyntaxTree.ofModule extent, ScopeTree.ofModule "" extent none, none, none, none⟩

/-- The snapshot of one version of a document. The preferences are the host's, unless the analysis
itself decides them. -/
def snapshot (a : PreparedAnalysis) (document : DocumentUri) (version : Version)
    (preferences : Preferences) : Snapshot where
  document
  version
  tree := a.tree
  scopes := a.scopes
  preferences := ⟨a.includeBuiltins.getD preferences.includeBuiltins⟩
  inference := (a.evaluation.map (·.inference)).getD .silent
  modules := (a.modules.map (·.index)).getD .empty

end PreparedAnalysis

end CodeInsight

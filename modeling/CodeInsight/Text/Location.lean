/-
# Documents and locations

Documents are told apart by the exact text of their addresses, and the texts of
one document by the versions that the editor gives them.
-/

import CodeInsight.Text.Span

namespace CodeInsight

/-- The address of a document. -/
abbrev DocumentUri := String

/-- The version of a document's text, as the editor numbers it. -/
abbrev Version := Int32

/-- A span in some document. -/
structure Location where
  document : DocumentUri
  span : Span
  deriving DecidableEq, Repr

end CodeInsight

/-
# Requests for analysis

A request hands one version of a document to the analysis. Requests are listed by
document, then by version, then by text.
-/

import CodeInsight.Text.Location

namespace CodeInsight

/-- The text of one version of a document, to be analysed. -/
structure Request where
  document : DocumentUri
  version : Version
  text : List Char
  deriving DecidableEq, Repr

namespace Request

instance : Ord Request :=
  ⟨fun a b => ((compare a.document b.document).then (compare a.version b.version)).then
    (compare a.text b.text)⟩

/-- Requests in their order of listing. -/
def listing (requests : List Request) : List Request :=
  requests.mergeSort fun a b => (compare a b).isLE

end Request

end CodeInsight

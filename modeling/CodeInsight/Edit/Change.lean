/-
# Changes and batches of changes

An editor reports what was typed as batches of changes. Spans in a batch refer to
the document as it was before the batch, and a batch lists its changes from the
end of the document backwards, so that none of them moves the place of the next.
-/

import CodeInsight.Text.Location

namespace CodeInsight

/-- One edit of a batch. -/
inductive Change where
  /-- The whole text gives way to another one. -/
  | whole (text : List Char)
  /-- The text under a span gives way to another one. -/
  | replace (span : Span) (text : List Char)
  deriving DecidableEq, Repr

namespace Change

/-- Text typed at a position. -/
def insert (p : Position) (text : List Char) : Change := replace (Span.point p) text

/-- The text under a span removed. -/
def delete (span : Span) : Change := replace span []

/-- An edit event of an editor replaces its range, or the whole text when it names none. -/
def ofEvent (range : Option Span) (text : List Char) : Change :=
  match range with
  | some span => replace span text
  | none => whole text

/-- Whether a change replaces the whole text. -/
def isWhole : Change → Bool
  | whole _ => true
  | replace _ _ => false

/-- The span that a change replaces, absent for the whole text. -/
def span? : Change → Option Span
  | whole _ => none
  | replace span _ => some span

/-- The text that a change brings in. -/
def text : Change → List Char
  | whole text => text
  | replace _ text => text

end Change

/-- The changes that lead from one version of a document to another. -/
structure Batch where
  fromVersion : Version
  toVersion : Version
  changes : List Change
  deriving DecidableEq

namespace Batch

/-- A batch that replaces the whole text anywhere does not depend on the text before it. -/
def hasWhole (b : Batch) : Bool := b.changes.any Change.isWhole

end Batch

end CodeInsight

/-
# Splices

A splice is a change with its span resolved to character offsets of some text.
Resolving a span against a line table and a current length keeps both ends
inside the current text, whatever the line table was made from.
-/

import CodeInsight.Text.LineTable
import CodeInsight.Text.Span

namespace CodeInsight

/-- The characters from `start` up to `stop` give way to `inserted`. When `stop` is not behind
`start`, nothing is removed. -/
structure Splice where
  start : Nat
  stop : Nat
  inserted : List Char
  deriving DecidableEq, Repr

namespace Splice

/-- The text after a splice. -/
def apply (s : Splice) (text : List Char) : List Char :=
  text.take s.start ++ s.inserted ++ text.drop (max s.start s.stop)

/-- Both ends of a splice lie within a text of this length. -/
def Fits (s : Splice) (length : Nat) : Prop := s.start ≤ length ∧ s.stop ≤ length

instance (s : Splice) (length : Nat) : Decidable (s.Fits length) :=
  inferInstanceAs (Decidable (_ ∧ _))

/-- The splice that a span and its replacement stand for in a text of the given length, the span
being read in a line table that may belong to an earlier text. -/
def resolve (table : LineTable) (length : Nat) (span : Span) (text : List Char) : Splice :=
  ⟨min (table.offset span.start) length, min (table.offset span.stop) length, text⟩

theorem fits_resolve (table : LineTable) (length : Nat) (span : Span) (text : List Char) :
    (resolve table length span text).Fits length :=
  ⟨Nat.min_le_right _ _, Nat.min_le_right _ _⟩

end Splice

end CodeInsight

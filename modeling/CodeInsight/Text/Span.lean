/-
# Spans of text

A span covers the text between two positions. Both ends belong to it, so that a
cursor standing right behind the last character of a name is still on that name.
A span may be inverted; it then covers nothing, but it still takes part in every
comparison below.
-/

import CodeInsight.Text.Position

namespace CodeInsight

/-- The region between two positions, ends included. -/
structure Span where
  start : Position
  stop : Position
  deriving DecidableEq, Repr

namespace Span

/-- The span that starts and ends at the start of the text. -/
def origin : Span := ⟨Position.origin, Position.origin⟩

instance : Inhabited Span := ⟨origin⟩

/-- The span of length zero at a position. -/
def point (p : Position) : Span := ⟨p, p⟩

/-- A span covers no text when it does not start before its end. -/
def isEmpty (s : Span) : Bool := s.stop ≤ s.start

/-- A position lies within a span when it is neither before its start nor behind its end. -/
def contains (s : Span) (p : Position) : Bool := s.start ≤ p && p ≤ s.stop

/-- One span encloses another when it starts no later and ends no earlier. -/
def encloses (outer inner : Span) : Bool := outer.start ≤ inner.start && inner.stop ≤ outer.stop

/-- Whether a span is a tighter fit than another for a position in both. Of a span and a different
one around it, the inner is the tighter. Where neither encloses the other, the two overlap in part
or touch, and the one that starts later is the tighter, whatever their sizes. -/
def isTighterThan (s other : Span) : Bool :=
  if other.encloses s then s ≠ other
  else if s.encloses other then false
  else other.start < s.start

/-- The element with the tightest span; of elements with equal spans, the first. An empty list has
none. -/
def tightestBy? {α : Type _} (spanOf : α → Span) : List α → Option α
  | [] => none
  | first :: rest =>
    some (rest.foldl
      (fun best next => if (spanOf next).isTighterThan (spanOf best) then next else best) first)

end Span

end CodeInsight

/-
# Line tables

A line table records where the lines of one fixed text start and where their
content ends, and converts between positions and character offsets by it. Lines
end at a line feed, at a carriage return, or at the two together, which count as
one terminator. No other character ends a line, and a terminator at the very end
opens one more, empty line, so every text has at least one line.

Conversions never fail. A position outside the text is moved to the nearest
place that exists, and an offset inside a terminator is moved back to the end of
the line's content.
-/

import CodeInsight.Text.ColumnEncoding
import CodeInsight.Text.Position

namespace CodeInsight

/-- The extent of one line: its first character and the end of its content, terminator excluded. -/
structure LineExtent where
  start : Nat
  stop : Nat
  deriving DecidableEq, Repr

namespace LineExtent

/-- The lines of the rest of a text, where `offset` characters precede the rest and the line
under way began at `start`. -/
def scan (start offset : Nat) : List Char → List LineExtent
  | [] => [⟨start, offset⟩]
  | '\r' :: '\n' :: rest => ⟨start, offset⟩ :: scan (offset + 2) (offset + 2) rest
  | c :: rest =>
    if c = '\n' ∨ c = '\r' then ⟨start, offset⟩ :: scan (offset + 1) (offset + 1) rest
    else scan start (offset + 1) rest

end LineExtent

/-- The lines of a text, with the encoding that its columns are counted in. -/
structure LineTable where
  text : List Char
  encoding : ColumnEncoding
  lines : List LineExtent
  deriving DecidableEq, Repr

namespace LineTable

/-- The line table of a text. -/
def ofText (text : List Char) (encoding : ColumnEncoding) : LineTable :=
  ⟨text, encoding, LineExtent.scan 0 0 text⟩

/-- The number of lines, the empty one behind a final terminator included. -/
def lineCount (t : LineTable) : Nat := t.lines.length

/-- The offset at which a line starts. -/
def lineStart? (t : LineTable) (line : Nat) : Option Nat := (t.lines[line]?).map (·.start)

/-- The number of characters whose units fit into `columns`. A character that fits only in part
does not count. -/
def charactersWithin (encoding : ColumnEncoding) : Nat → List Char → Nat
  | _, [] => 0
  | columns, c :: rest =>
    if encoding.width c ≤ columns then
      charactersWithin encoding (columns - encoding.width c) rest + 1
    else 0

/-- The characters of a line up to a given offset. -/
def contentUpTo (t : LineTable) (line : LineExtent) (stop : Nat) : List Char :=
  t.text.extract line.start (min stop line.stop)

/-- The offset of a position. A column behind the end of its line stands for the end of the line's
content, a column inside a character for the character's start, and a line behind the last one for
the end of the text. -/
def offset (t : LineTable) (p : Position) : Nat :=
  match t.lines[p.line.toNat]? with
  | none => t.text.length
  | some line =>
    line.start
      + charactersWithin t.encoding p.character.toNat (t.contentUpTo line line.stop)

/-- The number of the line that an offset falls on: the last line that starts no later. -/
def lineAt (t : LineTable) (offset : Nat) : Nat :=
  (t.lines.takeWhile (·.start ≤ offset)).length - 1

/-- The position of an offset. An offset inside a terminator stands for the end of the line's
content, one behind the text for the end of the text. Line and column are kept to 32 bits. -/
def position (t : LineTable) (offset : Nat) : Position :=
  let reached := min offset t.text.length
  let number := t.lineAt reached
  match t.lines[number]? with
  | none => Position.origin
  | some line =>
    ⟨.ofNat number, .ofNat (t.encoding.lengthOf (t.contentUpTo line reached))⟩

end LineTable

end CodeInsight

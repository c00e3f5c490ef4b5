/-
# Blanks, comments and line ends of TOML

Blanks are spaces and tabs. A line ends with a line feed, alone or behind a
carriage return; a carriage return alone is refused. Control characters other
than tabs are refused in comments and strings.

A reader takes something off the front of a text and answers with what it read
and the rest of the text.

The modules on TOML are the outer layer of the library. A host may write its
settings in this format and usually has a reader for it from elsewhere; these
modules stand in for that reader, so that settings can be read here as well. The
theory starts from settings that were read: nothing that is proved says anything
about their text, or depends on it.
-/

namespace CodeInsight.Toml

/-- Spaces and tabs. -/
def isBlank (c : Char) : Bool := c = ' ' || c = '\t'

/-- Characters that may stand in comments and strings. -/
def isPlain (c : Char) : Bool := c = '\t' || (' ' ≤ c && c ≠ '\x7f')

/-- The text behind its leading blanks. -/
def skipBlanks (text : List Char) : List Char := text.dropWhile isBlank

/-- The text behind the line end in front of it. -/
def afterNewline? : List Char → Option (List Char)
  | '\n' :: rest => some rest
  | '\r' :: '\n' :: rest => some rest
  | _ => none

/-- Whether the text is over or a line end is in front of it. -/
def atLineEnd (text : List Char) : Bool := text.isEmpty || (afterNewline? text).isSome

/-- The text behind blanks and a comment, up to the line end; there is none when something else
stands on the line. -/
def toLineEnd? (text : List Char) : Option (List Char) :=
  let rest := match skipBlanks text with
    | '#' :: comment => comment.dropWhile isPlain
    | rest => rest
  if atLineEnd rest then some rest else none

/-- The text behind blanks, comments and line ends. Every line takes one unit of the budget. -/
def skipLines? : (budget : Nat) → List Char → Option (List Char)
  | 0, _ => none
  | budget + 1, text =>
    match toLineEnd? text with
    | none => some (skipBlanks text)
    | some [] => some []
    | some rest => (afterNewline? rest).bind (skipLines? budget)

/-- The text behind blanks, comments and line ends, as between the items of an array. -/
def skipFiller? (text : List Char) : Option (List Char) := skipLines? (text.length + 1) text

end CodeInsight.Toml

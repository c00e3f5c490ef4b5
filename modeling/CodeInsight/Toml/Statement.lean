/-
# Statements of TOML

A document is a list of statements: headers, which open a table, and assignments,
which put a value into the table that was opened last. Keys may be dotted; all
but the last part of a key then lead to the table that the last part belongs to.
A statement stands on one line, but lines may end inside the brackets and braces
of its value, though never inside a key, and inside texts in three quotes.

Of the values that the format knows, floats and dates are refused.

Like all of TOML this belongs to the outer layer, on which nothing proved depends.
-/

import CodeInsight.Toml.Quoted

namespace CodeInsight.Toml

/-- A dotted key: the way to a table, and a name in that table. -/
structure Key where
  path : List String
  name : String
  deriving DecidableEq, Repr

mutual

/-- A value as it is written. -/
inductive Expr where
  | string (value : String)
  | integer (value : Int)
  | boolean (value : Bool)
  | array (items : List Expr)
  | inlineTable (entries : List Assignment)

/-- A key and the value that it gets. -/
structure Assignment where
  key : Key
  value : Expr

end

/-- One statement of a document. -/
inductive Statement where
  /-- Opens a table. -/
  | header (key : Key)
  /-- Opens a new element of an array of tables. -/
  | arrayHeader (key : Key)
  | assignment (assignment : Assignment)

/-- Characters of keys that need no quotes. -/
def isBare (c : Char) : Bool :=
  ('a' ≤ c && c ≤ 'z') || ('A' ≤ c && c ≤ 'Z') || ('0' ≤ c && c ≤ '9') || c = '-' || c = '_'

/-- One part of a dotted key. -/
def keyPart? (text : List Char) : Option (String × List Char) :=
  match quotedOnLine? text with
  | some taken => some taken
  | none =>
    let bare := text.takeWhile isBare
    if bare.isEmpty then none else some (String.ofList bare, text.drop bare.length)

/-- A dotted key and the blanks behind it. Every part takes one unit of the budget. -/
def keyWithin? : (budget : Nat) → List Char → Option (Key × List Char)
  | 0, _ => none
  | budget + 1, text => do
    let (part, rest) ← keyPart? text
    match skipBlanks rest with
    | '.' :: rest =>
      let (key, rest) ← keyWithin? budget (skipBlanks rest)
      return (⟨part :: key.path, key.name⟩, rest)
    | rest => return (⟨[], part⟩, rest)

/-- A dotted key with the blanks around it. -/
def key? (text : List Char) : Option (Key × List Char) :=
  keyWithin? (text.length + 1) (skipBlanks text)

/-- Digits may be grouped by underscores, each of which stands between two digits. -/
def wellGrouped : (afterDigit : Bool) → List Char → Bool
  | afterDigit, [] => afterDigit
  | afterDigit, '_' :: rest => afterDigit && wellGrouped false rest
  | _, _ :: rest => wellGrouped true rest

/-- The number that grouped digits of a base stand for. -/
def groupedNumber? (base : Nat) (digits : List Char) : Option Nat :=
  if wellGrouped false digits then number? base (digits.filter (· ≠ '_')) else none

/-- A decimal number has no leading zero, unless it is zero. -/
def decimal? (digits : List Char) : Option Nat :=
  if digits.head? = some '0' && digits ≠ ['0'] then none else groupedNumber? 10 digits

/-- Decimal numbers may have a sign, the others are marked by their base. -/
def integer? : List Char → Option Int
  | '0' :: 'x' :: digits => (groupedNumber? 16 digits).map Int.ofNat
  | '0' :: 'o' :: digits => (groupedNumber? 8 digits).map Int.ofNat
  | '0' :: 'b' :: digits => (groupedNumber? 2 digits).map Int.ofNat
  | '+' :: digits => (decimal? digits).map Int.ofNat
  | '-' :: digits => (decimal? digits).map fun n => -Int.ofNat n
  | digits => (decimal? digits).map Int.ofNat

/-- Characters that may stand in numbers and words. -/
def isWordCharacter (c : Char) : Bool := isBare c || c = '+' || c = '.' || c = ':'

/-- A number or a truth value. -/
def word? (text : List Char) : Option (Expr × List Char) :=
  let word := text.takeWhile isWordCharacter
  let rest := text.drop word.length
  if word = "true".toList then some (.boolean true, rest)
  else if word = "false".toList then some (.boolean false, rest)
  else (integer? word).map fun value => (.integer value, rest)

mutual

/-- A value. -/
def exprWithin? : (budget : Nat) → List Char → Option (Expr × List Char)
  | 0, _ => none
  | budget + 1, '[' :: rest => do
    let (items, rest) ← itemsWithin? budget rest
    return (.array items, rest)
  | budget + 1, '\x7b' :: rest => do
    let (entries, rest) ← entriesWithin? budget rest
    return (.inlineTable entries, rest)
  | _ + 1, '"' :: rest => do
    let (text, rest) ← quoted? ('"' :: rest)
    return (.string text, rest)
  | _ + 1, '\'' :: rest => do
    let (text, rest) ← quoted? ('\'' :: rest)
    return (.string text, rest)
  | _ + 1, text => word? text

/-- The items of an array up to its closing bracket. -/
def itemsWithin? : (budget : Nat) → List Char → Option (List Expr × List Char)
  | 0, _ => none
  | budget + 1, text => do
    match ← skipFiller? text with
    | ']' :: rest => return ([], rest)
    | rest =>
      let (item, rest) ← exprWithin? budget rest
      match ← skipFiller? rest with
      | ']' :: rest => return ([item], rest)
      | ',' :: rest =>
        let (items, rest) ← itemsWithin? budget rest
        return (item :: items, rest)
      | _ => none

/-- The assignments of an inline table up to its closing brace. Lines may also end on both sides of
an equals sign. -/
def entriesWithin? : (budget : Nat) → List Char → Option (List Assignment × List Char)
  | 0, _ => none
  | budget + 1, text => do
    match ← skipFiller? text with
    | '\x7d' :: rest => return ([], rest)
    | rest =>
      let (entry, rest) ← assignmentWithin? skipFiller? budget rest
      match ← skipFiller? rest with
      | '\x7d' :: rest => return ([entry], rest)
      | ',' :: rest =>
        let (entries, rest) ← entriesWithin? budget rest
        return (entry :: entries, rest)
      | _ => none

/-- A key, an equals sign and a value. What may stand on both sides of the equals sign is taken off
by `skip?`. -/
def assignmentWithin? (skip? : List Char → Option (List Char)) :
    (budget : Nat) → List Char → Option (Assignment × List Char)
  | 0, _ => none
  | budget + 1, text => do
    let (key, rest) ← key? text
    match ← skip? rest with
    | '=' :: rest =>
      let (value, rest) ← exprWithin? budget (← skip? rest)
      return (⟨key, value⟩, rest)
    | _ => none

end

/-- A header or an assignment. Every bracket, item and entry of a value takes at most three units
of the budget. -/
def statement? : List Char → Option (Statement × List Char)
  | '[' :: '[' :: rest => do
    match ← key? rest with
    | (key, ']' :: ']' :: rest) => return (.arrayHeader key, rest)
    | _ => none
  | '[' :: rest => do
    match ← key? rest with
    | (key, ']' :: rest) => return (.header key, rest)
    | _ => none
  | text => do
    let (assignment, rest) ← assignmentWithin? (some ∘ skipBlanks) (3 * text.length + 3) text
    return (.assignment assignment, rest)

/-- The statements of a document, each on lines of its own. Every line takes one unit of the
budget. -/
def statementsWithin? : (budget : Nat) → List Char → Option (List Statement)
  | 0, _ => none
  | budget + 1, text => do
    match ← skipFiller? text with
    | [] => return []
    | text =>
      let (statement, rest) ← statement? text
      let rest ← toLineEnd? rest
      let statements ← statementsWithin? budget rest
      return statement :: statements

/-- The statements of a document. A byte order mark in front of it is skipped. -/
def statements? (document : String) : Option (List Statement) :=
  let text := match document.toList with
    | '\ufeff' :: rest => rest
    | text => text
  statementsWithin? (text.length + 1) text

end CodeInsight.Toml

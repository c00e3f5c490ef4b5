/-
# Quoted text of TOML

Text is quoted in four ways. Double quotes allow escapes and single quotes do
not; three quotes in a row allow line ends. A line end right behind three opening
quotes is not part of the text, and in an escaping text neither is a backslash at
the end of a line with all blanks and line ends that follow it. Up to two quotes
may stand directly before three closing ones.

Like all of TOML this belongs to the outer layer, on which nothing proved depends.
-/

import CodeInsight.Toml.Lexeme

namespace CodeInsight.Toml

/-- The value of a digit in bases up to sixteen. -/
def digitValue? (c : Char) : Option Nat :=
  if '0' ≤ c && c ≤ '9' then some (c.toNat - '0'.toNat)
  else if 'a' ≤ c && c ≤ 'f' then some (c.toNat - 'a'.toNat + 10)
  else if 'A' ≤ c && c ≤ 'F' then some (c.toNat - 'A'.toNat + 10)
  else none

/-- The number that digits of a base stand for. -/
def number? (base : Nat) (digits : List Char) : Option Nat :=
  digits.foldlM (fun value c => do
    let digit ← digitValue? c
    if digit < base then some (value * base + digit) else none) 0

/-- The character with a given number, if there is one. -/
def scalar? (n : Nat) : Option Char := if n.isValidChar then some (Char.ofNat n) else none

/-- The character that an escape stands for, its backslash already taken. -/
def escape? : List Char → Option (Char × List Char)
  | '"' :: rest => some ('"', rest)
  | '\\' :: rest => some ('\\', rest)
  | 'b' :: rest => some ('\x08', rest)
  | 't' :: rest => some ('\t', rest)
  | 'n' :: rest => some ('\n', rest)
  | 'f' :: rest => some ('\x0c', rest)
  | 'r' :: rest => some ('\r', rest)
  | 'e' :: rest => some ('\x1b', rest)
  | 'x' :: rest => hex 2 rest
  | 'u' :: rest => hex 4 rest
  | 'U' :: rest => hex 8 rest
  | _ => none
where
  hex (width : Nat) (text : List Char) : Option (Char × List Char) := do
    let digits := text.take width
    if digits.length < width then none
    let c ← (number? 16 digits).bind scalar?
    return (c, text.drop width)

/-- The rest of a text in double quotes. Every character takes one unit of the budget. -/
def escaped? : (budget : Nat) → List Char → Option (List Char × List Char)
  | 0, _ => none
  | _ + 1, [] => none
  | _ + 1, '"' :: rest => some ([], rest)
  | budget + 1, '\\' :: rest => do
    let (c, rest) ← escape? rest
    let (text, rest) ← escaped? budget rest
    return (c :: text, rest)
  | budget + 1, c :: rest => do
    if !isPlain c then none
    let (text, rest) ← escaped? budget rest
    return (c :: text, rest)

/-- The rest of a text in single quotes. -/
def literal? : List Char → Option (List Char × List Char)
  | [] => none
  | '\'' :: rest => some ([], rest)
  | c :: rest => do
    if !isPlain c then none
    let (text, rest) ← literal? rest
    return (c :: text, rest)

/-- The quotes that still belong to the text when three closing ones have been met, and what
follows. -/
def closing (quote : Char) (rest : List Char) : List Char × List Char :=
  let extra := (rest.take 2).takeWhile (· = quote)
  (extra, rest.drop extra.length)

/-- The text behind blank lines and blanks. Every line takes one unit of the budget. -/
def skipBlankLines : (budget : Nat) → List Char → List Char
  | 0, text => text
  | budget + 1, text =>
    match afterNewline? (skipBlanks text) with
    | some rest => skipBlankLines budget rest
    | none => skipBlanks text

/-- The text behind the blanks and line ends that a backslash at the end of a line hides; there is
none when the backslash is not at the end of a line. -/
def hidden? (text : List Char) : Option (List Char) :=
  (afterNewline? (skipBlanks text)).map (skipBlankLines text.length)

/-- The rest of a text in three double quotes. Every character takes one unit of the budget. -/
def escapedLines? : (budget : Nat) → List Char → Option (List Char × List Char)
  | 0, _ => none
  | _ + 1, '"' :: '"' :: '"' :: rest => some (closing '"' rest)
  | budget + 1, '\\' :: rest =>
    match hidden? rest with
    | some rest => escapedLines? budget rest
    | none => do
      let (c, rest) ← escape? rest
      let (text, rest) ← escapedLines? budget rest
      return (c :: text, rest)
  | budget + 1, text =>
    match afterNewline? text, text with
    | some rest, _ => do
      let (text, rest) ← escapedLines? budget rest
      return ('\n' :: text, rest)
    | none, c :: rest => do
      if !isPlain c then none
      let (text, rest) ← escapedLines? budget rest
      return (c :: text, rest)
    | none, [] => none

/-- The rest of a text in three single quotes. Every character takes one unit of the budget. -/
def literalLines? : (budget : Nat) → List Char → Option (List Char × List Char)
  | 0, _ => none
  | _ + 1, '\'' :: '\'' :: '\'' :: rest => some (closing '\'' rest)
  | budget + 1, text =>
    match afterNewline? text, text with
    | some rest, _ => do
      let (text, rest) ← literalLines? budget rest
      return ('\n' :: text, rest)
    | none, c :: rest => do
      if !isPlain c then none
      let (text, rest) ← literalLines? budget rest
      return (c :: text, rest)
    | none, [] => none

/-- A text quoted on one line. -/
def quotedOnLine? : List Char → Option (String × List Char)
  | '"' :: rest => do
    let (text, rest) ← escaped? (rest.length + 1) rest
    return (String.ofList text, rest)
  | '\'' :: rest => do
    let (text, rest) ← literal? rest
    return (String.ofList text, rest)
  | _ => none

/-- A text quoted in any of the four ways. -/
def quoted? : List Char → Option (String × List Char)
  | '"' :: '"' :: '"' :: rest => do
    let rest := (afterNewline? rest).getD rest
    let (text, rest) ← escapedLines? (rest.length + 1) rest
    return (String.ofList text, rest)
  | '\'' :: '\'' :: '\'' :: rest => do
    let rest := (afterNewline? rest).getD rest
    let (text, rest) ← literalLines? (rest.length + 1) rest
    return (String.ofList text, rest)
  | text => quotedOnLine? text

end CodeInsight.Toml

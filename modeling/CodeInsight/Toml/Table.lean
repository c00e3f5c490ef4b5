/-
# Tables of TOML

Statements fill a tree of tables. A table may be opened by a header once, and
only if no dotted key has made it; a dotted key may extend a table made by dotted
keys, and none that a header opened; an inline table is finished once it is
written. A header may lead through any tables but inline ones, and through the
last element of an array of tables.

Like all of TOML this belongs to the outer layer, on which nothing proved depends.
-/

import CodeInsight.Toml.Statement

namespace CodeInsight.Toml

/-- A value of a finished document. -/
inductive Value where
  | string (value : String)
  | integer (value : Int)
  | boolean (value : Bool)
  | array (items : List Value)
  | table (entries : List (String × Value))

/-- How a table came to be. -/
inductive Origin where
  /-- A header led through it. -/
  | passed
  /-- A header opened it. -/
  | opened
  /-- A dotted key led through it. -/
  | dotted
  deriving DecidableEq, Repr

/-- An entry of a table under construction. -/
inductive Entry where
  /-- Nothing can be added to a written value. -/
  | value (value : Value)
  | table (origin : Origin) (entries : List (String × Entry))
  /-- The elements of an array of tables, the last one first. -/
  | tables (last : List (String × Entry)) (earlier : List (List (String × Entry)))

/-- The entries of a table under construction. -/
abbrev Entries := List (String × Entry)

namespace Entries

/-- The entries with the entry of one key replaced, or added behind the others. -/
def put (key : String) (entry : Entry) : Entries → Entries
  | [] => [(key, entry)]
  | (k, e) :: rest => if k = key then (k, entry) :: rest else (k, e) :: put key entry rest

/-- Adds a value under a dotted key. -/
def assign? (name : String) (value : Value) : (path : List String) → Entries → Option Entries
  | [], entries =>
    match entries.lookup name with
    | some _ => none
    | none => some (put name (.value value) entries)
  | part :: path, entries =>
    match entries.lookup part with
    | none => (assign? name value path []).map fun inner => put part (.table .dotted inner) entries
    | some (.table origin inner) =>
      if origin = .dotted ∨ origin = .passed ∧ path ≠ [] then
        (assign? name value path inner).map fun inner => put part (.table origin inner) entries
      else none
    | some _ => none

/-- Changes the table that a header's path leads to. -/
def changeAt? (change : Entries → Option Entries) : (path : List String) → Entries → Option Entries
  | [], entries => change entries
  | part :: path, entries =>
    match entries.lookup part with
    | none => (changeAt? change path []).map fun inner => put part (.table .passed inner) entries
    | some (.table origin inner) =>
      (changeAt? change path inner).map fun inner => put part (.table origin inner) entries
    | some (.tables last earlier) =>
      (changeAt? change path last).map fun last => put part (.tables last earlier) entries
    | some (.value _) => none

/-- Opens a table that no header has opened and no dotted key has made. -/
def open? (name : String) (entries : Entries) : Option Entries :=
  match entries.lookup name with
  | none => some (put name (.table .opened []) entries)
  | some (.table .passed inner) => some (put name (.table .opened inner) entries)
  | some _ => none

/-- Opens a new element of an array of tables. -/
def append? (name : String) (entries : Entries) : Option Entries :=
  match entries.lookup name with
  | none => some (put name (.tables [] []) entries)
  | some (.tables last earlier) => some (put name (.tables [] (last :: earlier)) entries)
  | some _ => none

end Entries

mutual

/-- The value that an entry comes to when nothing more is added. -/
def Entry.finish : Entry → Value
  | .value value => value
  | .table _ entries => .table (finishEntries entries)
  | .tables last earlier => .array ((.table (finishEntries last) :: finishTables earlier).reverse)
termination_by structural e => e

/-- The values that the entries of a table come to. -/
def finishEntries : List (String × Entry) → List (String × Value)
  | [] => []
  | (key, entry) :: rest => (key, entry.finish) :: finishEntries rest
termination_by structural entries => entries

/-- The values that several tables come to. -/
def finishTables : List (List (String × Entry)) → List Value
  | [] => []
  | entries :: rest => .table (finishEntries entries) :: finishTables rest
termination_by structural tables => tables

end

mutual

/-- The value of an expression; there is none when an inline table gives a key twice. -/
def Expr.value? : Expr → Option Value
  | .string value => some (.string value)
  | .integer value => some (.integer value)
  | .boolean value => some (.boolean value)
  | .array items => (values? items).map .array
  | .inlineTable assignments => (assignAll? [] assignments).map fun entries =>
    .table (finishEntries entries)
termination_by structural e => e

/-- The values of several expressions. -/
def values? : List Expr → Option (List Value)
  | [] => some []
  | item :: rest => do
    let value ← item.value?
    let values ← values? rest
    return value :: values
termination_by structural items => items

/-- The entries with several assignments made. -/
def assignAll? (entries : Entries) : List Assignment → Option Entries
  | [] => some entries
  | ⟨key, expr⟩ :: rest => do
    let value ← expr.value?
    let entries ← Entries.assign? key.name value key.path entries
    assignAll? entries rest
termination_by structural assignments => assignments

end

/-- A document under construction: its entries, and the way to the table opened last. -/
structure Draft where
  entries : Entries
  current : List String

/-- The draft after one more statement. -/
def Draft.add? (d : Draft) : Statement → Option Draft
  | .header key => do
    let entries ← Entries.changeAt? (Entries.open? key.name) key.path d.entries
    return ⟨entries, key.path ++ [key.name]⟩
  | .arrayHeader key => do
    let entries ← Entries.changeAt? (Entries.append? key.name) key.path d.entries
    return ⟨entries, key.path ++ [key.name]⟩
  | .assignment ⟨key, expr⟩ => do
    let value ← expr.value?
    let entries ← Entries.changeAt? (Entries.assign? key.name value key.path) d.current d.entries
    return ⟨entries, d.current⟩

/-- The entries of a document; there are none when it is malformed. -/
def parse? (document : String) : Option (List (String × Value)) := do
  let statements ← statements? document
  let draft ← statements.foldlM Draft.add? ⟨[], []⟩
  return finishEntries draft.entries

end CodeInsight.Toml

/-
# Interchange of positions, spans and encodings

Hosts hand positions over as plain data. A structure is written as a record of
its fields and is read either from a record, whose other entries are ignored, or
from a list that holds exactly its fields in order. Reading what was written
gives the value back.

This is the outer layer of the library and stands in for the serialiser that a host
has from elsewhere. The theory starts from positions that were read: nothing that is
proved about texts, edits and queries depends on how they are handed over.
-/

import CodeInsight.Text.ColumnEncoding
import CodeInsight.Text.Span

namespace CodeInsight

/-- Plain data. Numbers that are not written as integers are all alike here, since nothing is read
from them. -/
inductive Datum where
  | null
  | bool (value : Bool)
  | integer (value : Int)
  | fraction
  | text (value : String)
  | list (items : List Datum)
  | record (entries : List (String × Datum))
  deriving Inhabited

namespace Datum

/-- An integer of 32 bits without sign. -/
def unsigned? : Datum → Option UInt32
  | integer value => if 0 ≤ value ∧ value < UInt32.size then some (.ofNat value.toNat) else none
  | _ => none

theorem unsigned?_toNat (n : UInt32) : unsigned? (.integer n.toNat) = some n := by
  have hrange : 0 ≤ (n.toNat : Int) ∧ (n.toNat : Int) < UInt32.size :=
    ⟨Int.natCast_nonneg _, Int.ofNat_lt.mpr n.toNat_lt⟩
  rw [unsigned?, if_pos hrange, Int.toNat_natCast, UInt32.ofNat_toNat]

/-- The two fields of a structure, from a record that has both or from a list of just the two. -/
def fields? (first second : String) : Datum → Option (Datum × Datum)
  | record entries => do return (← entries.lookup first, ← entries.lookup second)
  | list [a, b] => some (a, b)
  | _ => none

theorem fields?_record {first second : String} (a b : Datum) (differ : second ≠ first) :
    (record [(first, a), (second, b)]).fields? first second = some (a, b) := by
  have hother : (second == first) = false := beq_false_of_ne differ
  simp [fields?, List.lookup_cons, hother]

end Datum

/-- Reads a position. -/
def Position.ofDatum? (d : Datum) : Option Position := do
  let (line, character) ← d.fields? "line" "character"
  return ⟨← line.unsigned?, ← character.unsigned?⟩

/-- Writes a position. -/
def Position.toDatum (p : Position) : Datum :=
  .record [("line", .integer p.line.toNat), ("character", .integer p.character.toNat)]

theorem Position.ofDatum?_of_fields {d line character : Datum} {p : Position}
    (fields : d.fields? "line" "character" = some (line, character))
    (hline : line.unsigned? = some p.line) (hcharacter : character.unsigned? = some p.character) :
    ofDatum? d = some p := by
  simp only [ofDatum?, fields, hline, hcharacter, Option.bind_eq_bind, Option.bind_some,
    Option.pure_def]

theorem Position.ofDatum?_toDatum (p : Position) : ofDatum? p.toDatum = some p :=
  ofDatum?_of_fields (Datum.fields?_record _ _ (by decide)) (Datum.unsigned?_toNat _)
    (Datum.unsigned?_toNat _)

/-- Reads a span. -/
def Span.ofDatum? (d : Datum) : Option Span := do
  let (start, stop) ← d.fields? "start" "end"
  return ⟨← Position.ofDatum? start, ← Position.ofDatum? stop⟩

/-- Writes a span. -/
def Span.toDatum (s : Span) : Datum :=
  .record [("start", s.start.toDatum), ("end", s.stop.toDatum)]

theorem Span.ofDatum?_of_fields {d start stop : Datum} {s : Span}
    (fields : d.fields? "start" "end" = some (start, stop))
    (hstart : Position.ofDatum? start = some s.start)
    (hstop : Position.ofDatum? stop = some s.stop) : ofDatum? d = some s := by
  simp only [ofDatum?, fields, hstart, hstop, Option.bind_eq_bind, Option.bind_some,
    Option.pure_def]

theorem Span.ofDatum?_toDatum (s : Span) : ofDatum? s.toDatum = some s :=
  ofDatum?_of_fields (Datum.fields?_record _ _ (by decide)) s.start.ofDatum?_toDatum
    s.stop.ofDatum?_toDatum

/-- Reads an encoding from its name, standing alone or as the key of a single empty entry. -/
def ColumnEncoding.ofDatum? : Datum → Option ColumnEncoding
  | .text name => ofName? name
  | .record [(name, .null)] => ofName? name
  | _ => none

/-- Writes an encoding as its name. -/
def ColumnEncoding.toDatum (e : ColumnEncoding) : Datum := .text e.name

theorem ColumnEncoding.ofDatum?_toDatum (e : ColumnEncoding) :
    ofDatum? e.toDatum = some e :=
  e.ofName?_name

end CodeInsight

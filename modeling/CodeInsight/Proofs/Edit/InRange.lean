/-
# Edits stay within the text

The spans of a batch are read in the text before the batch, and what they come to is used
on a text that has since shrunk, grown or been replaced. Both ends of a span are therefore
kept within the text as it is. `guardedApply?` applies a batch by accesses that have no
result where they are out of range: it removes and adds characters one after the other and
reads its spans in the same way. It always has a result, and that is the result of
applying the batch.
-/

import CodeInsight.Edit.Buffer
import CodeInsight.Proofs.Text.Access

namespace CodeInsight

open Access

namespace Splice

/-- The text after a splice, made by removing and adding. Nothing is removed when the splice does
not stop behind its start, and nothing is added when there is nothing to add. -/
def guardedApply? (s : Splice) (text : List Char) : Option (List Char) :=
  let left := if s.start < s.stop then remove? text s.start s.stop else some text
  left.bind fun left => if s.inserted = [] then some left else insert? left s.start s.inserted

/-- A splice that lies within a text removes and adds within it. -/
theorem guardedApply?_eq_some {s : Splice} {text : List Char} (fits : s.Fits text.length) :
    s.guardedApply? text = some (s.apply text) := by
  obtain ⟨hstart, hstop⟩ := fits
  let left := text.take s.start ++ text.drop (max s.start s.stop)
  have hlength : (text.take s.start).length = s.start := List.length_take_of_le hstart
  have hremoved : (if s.start < s.stop then remove? text s.start s.stop else some text) =
      some left := by
    by_cases hremoves : s.start < s.stop
    · rw [if_pos hremoves, remove?_eq_some hremoves hstop]
      show _ = some (text.take s.start ++ text.drop (max s.start s.stop))
      rw [Nat.max_eq_right (Nat.le_of_lt hremoves)]
    · rw [if_neg hremoves]
      show _ = some (text.take s.start ++ text.drop (max s.start s.stop))
      rw [Nat.max_eq_left (Nat.le_of_not_lt hremoves), List.take_append_drop]
  have hadded : (if s.inserted = [] then some left else insert? left s.start s.inserted) =
      some (s.apply text) := by
    by_cases hadds : s.inserted = []
    · rw [if_pos hadds, apply, hadds, List.append_nil]
    · have hwithin : s.start ≤ left.length := by
        rw [List.length_append, hlength]
        exact Nat.le_add_right _ _
      rw [if_neg hadds, insert?_eq_some hwithin, apply, List.take_left' hlength,
        List.drop_left' hlength]
  rw [guardedApply?, hremoved, Option.bind_some, hadded]

end Splice

namespace Buffer

/-- Applies changes in order, each by accesses to the text that it finds, with its span read in the
text of the table. -/
def guardedChanges? (table : LineTable) (bound : Option Nat) (text : List Char) :
    List Change → Option (List Char × Option EditError)
  | [] => some (text, none)
  | .whole replacement :: rest => guardedChanges? table bound replacement rest
  | .replace span inserted :: rest => do
    let start := min (← table.guardedOffset? span.start) text.length
    match bound.filter (· < start) with
    | some previous => some (text, some (.outOfOrder previous start))
    | none =>
      let stop := min (← table.guardedOffset? span.stop) text.length
      let left ← Splice.guardedApply? ⟨start, stop, inserted⟩ text
      guardedChanges? table (some start) left rest

/-- Applies one batch by accesses to the text. -/
def guardedApply? (b : Buffer) (caller : ThreadId) (batch : Batch) :
    Option (Buffer × Except EditError BatchOutcome) :=
  match b.checkCaller caller with
  | .error e => some (b, .error e)
  | .ok () =>
    match b.admission batch with
    | .stale => some (b, .ok (.stale b.version batch.fromVersion))
    | .refused e => some (b, .error e)
    | .accepted =>
      (guardedChanges? b.lineTable none b.text batch.changes).map fun
        | (text, none) =>
          ({ b with text, version := batch.toVersion }, .ok (.applied batch.toVersion))
        | (text, some e) => ({ b with text }, .error e)

/-- Whatever the text has become, changes are applied by accesses to it. -/
theorem guardedChanges?_eq_some (original : List Char) (encoding : ColumnEncoding)
    (bound : Option Nat) (text : List Char) (changes : List Change) :
    guardedChanges? (.ofText original encoding) bound text changes =
      some (applyChanges (.ofText original encoding) bound text changes) := by
  induction changes generalizing bound text with
  | nil => rfl
  | cons change rest ih =>
      cases change with
      | whole replacement => exact ih bound replacement
      | replace span inserted =>
          let splice := Splice.resolve (.ofText original encoding) text.length span inserted
          have hsplice : splice.guardedApply? text = some (splice.apply text) :=
            Splice.guardedApply?_eq_some (Splice.fits_resolve _ _ _ _)
          have hguarded : guardedChanges? (.ofText original encoding) bound text
              (.replace span inserted :: rest) =
                match bound.filter (· < splice.start) with
                | some previous => some (text, some (.outOfOrder previous splice.start))
                | none => (splice.guardedApply? text).bind fun left =>
                    guardedChanges? (.ofText original encoding) (some splice.start) left rest := by
            rw [guardedChanges?]
            simp only [LineTable.guardedOffset?_ofText, Option.bind_eq_bind, Option.bind_some]
            rfl
          have hplain : applyChanges (.ofText original encoding) bound text
              (.replace span inserted :: rest) =
                match bound.filter (· < splice.start) with
                | some previous => (text, some (.outOfOrder previous splice.start))
                | none => applyChanges (.ofText original encoding) (some splice.start)
                    (splice.apply text) rest := rfl
          rw [hguarded, hplain]
          cases bound.filter (· < splice.start) with
          | some previous => rfl
          | none => exact hsplice ▸ ih _ _

/-- **Edits and conversions stay within the text.** Whatever a buffer holds, and whatever the spans
of a batch are, applying the batch removes and adds characters only within the text as it is then.
For every text, positions and offsets are converted by reading only within the text, and every
offset falls on a line of the table. -/
theorem edits_and_conversions_stay_in_range :
    (∀ (b : Buffer) (caller : ThreadId) (batch : Batch),
      b.guardedApply? caller batch = some (b.apply caller batch)) ∧
    (∀ (text : List Char) (encoding : ColumnEncoding) (p : Position),
      (LineTable.ofText text encoding).guardedOffset? p =
        some ((LineTable.ofText text encoding).offset p)) ∧
    ∀ (text : List Char) (encoding : ColumnEncoding) (offset : Nat),
      (LineTable.ofText text encoding).guardedPosition? offset =
        some ((LineTable.ofText text encoding).position offset) := by
  refine ⟨fun b caller batch => ?_, LineTable.guardedOffset?_ofText,
    LineTable.guardedPosition?_ofText⟩
  rw [guardedApply?, apply]
  cases b.checkCaller caller with
  | error e => rfl
  | ok =>
      cases b.admission batch with
      | stale | refused => rfl
      | accepted =>
          have hchanges : guardedChanges? b.lineTable none b.text batch.changes =
              some (applyChanges b.lineTable none b.text batch.changes) :=
            guardedChanges?_eq_some b.text b.encoding none b.text batch.changes
          rcases hrun : applyChanges b.lineTable none b.text batch.changes with ⟨text, refusal⟩
          rw [hrun] at hchanges
          cases refusal with
          | none | some => simp only [hchanges, Option.map_some]

-- The span is read in a text of five characters and is kept to the two that are left. Without that
-- there would be nothing to remove.
example :
    let b : Buffer := ⟨['a', 'b', 'c', 'd', 'e'], 1, ⟨0⟩, .utf16⟩
    let late : Span := ⟨⟨0, 4⟩, ⟨0, 5⟩⟩
    b.guardedApply? ⟨0⟩ ⟨1, 2, [.whole ['p', 'q'], .replace late ['x']]⟩ =
        some (⟨['p', 'q', 'x'], 2, ⟨0⟩, .utf16⟩, .ok (.applied 2)) ∧
      Splice.guardedApply? ⟨4, 5, ['x']⟩ ['p', 'q'] = none := ⟨rfl, rfl⟩

end Buffer

end CodeInsight

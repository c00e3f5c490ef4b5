/-
# Batches as simultaneous substitutions

The changes of a batch are applied one after the other, but their spans are read
in the text before the batch. When each change lies at or before the start of the
one listed before it, the two agree: the result is the old text with all spans
replaced at once.

The invariant of the loop is that the text up to the start of the last change is
still the old one. Keeping the ends of a span within the current text then never
changes them.
-/

import CodeInsight.Proofs.Edit.Versions
import CodeInsight.Proofs.Text.Conversion
import Mathlib.Data.List.Chain

namespace CodeInsight

namespace Splice

/-- One splice lies at or before the start of another. An inverted splice lies at its start. -/
def EndsBefore (s other : Splice) : Prop := max s.start s.stop ≤ other.start

instance (s other : Splice) : Decidable (s.EndsBefore other) :=
  inferInstanceAs (Decidable (_ ≤ _))

/-- The text up to `stop` with the stretches of all splices replaced at once, where the splices are
listed from the end of the text backwards. Everything between them is the text itself. -/
def substitute (text : List Char) (stop : Nat) : List Splice → List Char
  | [] => text.take stop
  | s :: rest =>
    substitute text s.start rest ++ s.inserted ++ text.extract (max s.start s.stop) stop

/-- A splice that ends within an untouched prefix leaves everything behind the prefix alone. -/
theorem apply_take_append {s : Splice} {text : List Char} {stop : Nat}
    (within : max s.start s.stop ≤ stop) (fits : stop ≤ text.length) (rest : List Char) :
    s.apply (text.take stop ++ rest) =
      text.take s.start ++ (s.inserted ++ text.extract (max s.start s.stop) stop ++ rest) := by
  have hstop : max s.start s.stop ≤ (text.take stop).length := by
    rw [List.length_take]
    omega
  have hstart : s.start ≤ (text.take stop).length := Nat.le_trans (Nat.le_max_left _ _) hstop
  rw [apply, List.take_append_of_le_length hstart, List.drop_append_of_le_length hstop,
    List.take_take, List.drop_take, List.extract_eq_take_drop, Nat.min_eq_left (by omega)]
  simp only [List.append_assoc]

end Splice

/-- The splice that a change stands for in the text of a table, if it replaces a span. -/
def Change.splice? (table : LineTable) : Change → Option Splice
  | .whole _ => none
  | .replace span text => some ⟨table.offset span.start, table.offset span.stop, text⟩

/-- The splices that the spans of a batch stand for, as listed. -/
def Batch.splices (table : LineTable) (batch : Batch) : List Splice :=
  batch.changes.filterMap (Change.splice? table)

/-- Resolving a span against a text that reaches behind it changes neither of its ends. -/
theorem Splice.resolve_eq {table : LineTable} {length : Nat} {span : Span} {inserted : List Char}
    (within : max (table.offset span.start) (table.offset span.stop) ≤ length) :
    resolve table length span inserted =
      ⟨table.offset span.start, table.offset span.stop, inserted⟩ := by
  rw [resolve, Nat.min_eq_left (by omega), Nat.min_eq_left (by omega)]

namespace Buffer

open Splice

/-- From a text that agrees with `text` up to `stop`, changes that lie before `stop`, each before
the last, are all applied, and what they make of the prefix is the substitution. -/
theorem applyChanges_eq_substitute {table : LineTable} {text : List Char} {changes : List Change}
    (spans : ∀ c ∈ changes, c.isWhole = false) {stop : Nat} (fits : stop ≤ text.length)
    {bound : Option Nat} (bounded : ∀ last ∈ bound, stop ≤ last)
    (first : ∀ s ∈ (changes.filterMap (Change.splice? table)).head?, max s.start s.stop ≤ stop)
    (backwards : (changes.filterMap (Change.splice? table)).IsChain
      fun previous next => next.EndsBefore previous) (rest : List Char) :
    applyChanges table bound (text.take stop ++ rest) changes =
      (substitute text stop (changes.filterMap (Change.splice? table)) ++ rest, none) := by
  -- What lies behind `stop` is finished text, which the next change pushes to the right.
  induction changes generalizing stop bound rest with
  | nil => rfl
  | cons change changes ih =>
      cases change with
      | whole replacement => simpa [Change.isWhole] using spans _ List.mem_cons_self
      | replace span inserted =>
          have hsplices : (Change.replace span inserted :: changes).filterMap
              (Change.splice? table) =
                ⟨table.offset span.start, table.offset span.stop, inserted⟩ ::
                  changes.filterMap (Change.splice? table) := rfl
          rw [hsplices] at first backwards ⊢
          obtain ⟨hnext, hchain⟩ := List.isChain_cons.mp backwards
          have hwithin : max (table.offset span.start) (table.offset span.stop) ≤ stop :=
            first _ rfl
          have hlength : stop ≤ (text.take stop ++ rest).length := by
            rw [List.length_append, List.length_take]
            omega
          -- The current text still agrees with the old one up to `stop`, so no end is moved.
          have hordered : bound.filter (· < table.offset span.start) = none := by
            rw [Option.filter_eq_none_iff]
            intro last hlast
            have hstop := bounded last hlast
            simp only [decide_eq_true_eq]
            omega
          rw [applyChanges, resolve_eq (Nat.le_trans hwithin hlength)]
          simp only [hordered]
          rw [apply_take_append hwithin fits]
          have hstart : table.offset span.start ≤ text.length := by omega
          rw [ih (fun c hc => spans c (List.mem_cons_of_mem _ hc)) hstart
            (fun last hlast => Nat.le_of_eq (Option.mem_some_iff.mp hlast)) hnext hchain]
          simp only [substitute, List.append_assoc]

/-- **Splice correctness of a batch.** A batch of spans that passes the checks of its versions and
lists its changes backwards, each at or before the start of the last, is applied, and the text that
it leaves is the old one with all spans replaced at once. -/
theorem apply_backward_batch {b : Buffer} {batch : Batch} (spans : batch.hasWhole = false)
    (current : b.hasBaseline = true → batch.fromVersion = b.version)
    (forward : batch.fromVersion < batch.toVersion)
    (backwards : (batch.splices b.lineTable).IsChain
      fun previous next => next.EndsBefore previous) :
    b.apply b.owner batch =
      ({ b with
          text := substitute b.text b.text.length (batch.splices b.lineTable)
          version := batch.toVersion },
        .ok (.applied batch.toVersion)) := by
  have hspans : ∀ c ∈ batch.changes, c.isWhole = false := by
    simpa [Batch.hasWhole] using spans
  have hfirst : ∀ s ∈ (batch.splices b.lineTable).head?, max s.start s.stop ≤ b.text.length := by
    intro s hs
    obtain ⟨c, -, hc⟩ := List.mem_filterMap.mp (List.mem_of_mem_head? hs)
    cases c with
    | whole replacement => cases hc
    | replace span inserted =>
        cases hc
        exact Nat.max_le.mpr ⟨LineTable.offset_le_length _ _ _, LineTable.offset_le_length _ _ _⟩
  have hbounded : ∀ last ∈ (none : Option Nat), b.text.length ≤ last := nofun
  have happlied := applyChanges_eq_substitute hspans (Nat.le_refl b.text.length) hbounded hfirst
    backwards []
  rw [List.take_length, List.append_nil, List.append_nil] at happlied
  simp only [apply, checkCaller, if_pos, admission_eq_accepted spans current forward, happlied]
  rfl

/-- A line behind the last one, an inverted span and a column behind the end of its line. -/
theorem apply_backward_batch_out_of_range :
    let b : Buffer := ⟨['a', 'b', '\n', 'c', 'd'], 3, ⟨0⟩, .utf16⟩
    let batch : Batch := ⟨3, 4, [.replace ⟨⟨9, 0⟩, ⟨9, 5⟩⟩ ['!'],
      .replace ⟨⟨1, 1⟩, ⟨0, 0⟩⟩ ['-'], .replace ⟨⟨0, 1⟩, ⟨0, 9⟩⟩ []]⟩
    batch.hasWhole = false ∧ (b.hasBaseline = true → batch.fromVersion = b.version) ∧
      batch.fromVersion < batch.toVersion ∧
      (batch.splices b.lineTable).IsChain (fun previous next => next.EndsBefore previous) ∧
      b.apply b.owner batch =
        (⟨['a', '\n', 'c', '-', 'd', '!'], 4, ⟨0⟩, .utf16⟩, .ok (.applied 4)) := by
  intro b batch
  have hspans : batch.hasWhole = false := rfl
  have hcurrent : b.hasBaseline = true → batch.fromVersion = b.version := fun _ => rfl
  have hforward : batch.fromVersion < batch.toVersion := by decide
  have hbackwards : (batch.splices b.lineTable).IsChain
      (fun previous next => next.EndsBefore previous) := by decide
  exact ⟨hspans, hcurrent, hforward, hbackwards,
    (apply_backward_batch hspans hcurrent hforward hbackwards).trans rfl⟩

end Buffer

end CodeInsight

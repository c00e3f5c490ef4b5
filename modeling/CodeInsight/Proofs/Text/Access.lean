/-
# Accesses to a text

A text is read and changed at offsets, and there is nothing to read or to change at an
offset that is not in it. `Access` holds the four ways in which this library gets at a
text, each with no result where its bounds are out of range.

Conversions can be made of such accesses alone. They then follow the text character by
character and look lines up by halving the table, which finds nothing unless the table is
in order. `guardedOffset?` and `guardedPosition?` are made that way, and for the line table
of any text they have the result of the conversions that do without.
-/

import CodeInsight.Proofs.Text.Conversion

namespace CodeInsight

/-! ## Accesses -/

namespace Access

variable {text inserted : List Char} {start stop : Nat}

/-- The characters from an offset on, which may be the end of the text. -/
def charactersFrom? (text : List Char) (start : Nat) : Option (List Char) :=
  if start ≤ text.length then some (text.drop start) else none

/-- The characters from one offset up to another one. -/
def slice? (text : List Char) (start stop : Nat) : Option (List Char) :=
  if start ≤ stop ∧ stop ≤ text.length then some (text.extract start stop) else none

/-- The text without the characters from one offset up to a later one. -/
def remove? (text : List Char) (start stop : Nat) : Option (List Char) :=
  if start < stop ∧ stop ≤ text.length then some (text.take start ++ text.drop stop) else none

/-- The text with characters added at an offset. -/
def insert? (text : List Char) (start : Nat) (inserted : List Char) : Option (List Char) :=
  if start ≤ text.length then some (text.take start ++ inserted ++ text.drop start) else none

/-- How many elements a list begins with that pass a test. A search by halving tells this only if
none passes behind the first that does not. -/
def countLeading? {α : Type _} (passes : α → Bool) (list : List α) : Option Nat :=
  if (list.dropWhile passes).any passes then none else some (list.takeWhile passes).length

theorem charactersFrom?_eq_some (within : start ≤ text.length) :
    charactersFrom? text start = some (text.drop start) := if_pos within

theorem slice?_eq_some (ordered : start ≤ stop) (within : stop ≤ text.length) :
    slice? text start stop = some (text.extract start stop) := if_pos ⟨ordered, within⟩

theorem remove?_eq_some (ordered : start < stop) (within : stop ≤ text.length) :
    remove? text start stop = some (text.take start ++ text.drop stop) := if_pos ⟨ordered, within⟩

theorem insert?_eq_some (within : start ≤ text.length) :
    insert? text start inserted = some (text.take start ++ inserted ++ text.drop start) :=
  if_pos within

/-- In a list with all that pass in front, the search by halving finds their number. -/
theorem countLeading?_eq_some {α : Type _} {passes : α → Bool} {list : List α}
    (parted : list.Pairwise fun a b => passes b = true → passes a = true) :
    countLeading? passes list = some (list.takeWhile passes).length := by
  refine if_neg ?_
  induction list with
  | nil => exact Bool.false_ne_true
  | cons a list ih =>
      obtain ⟨hfirst, hrest⟩ := List.pairwise_cons.mp parted
      by_cases ha : passes a = true
      · rw [List.dropWhile_cons_of_pos ha]
        exact ih hrest
      · rw [List.dropWhile_cons_of_neg ha, List.any_eq_true]
        rintro ⟨b, hb, hpasses⟩
        rcases List.mem_cons.mp hb with rfl | hb
        · exact ha hpasses
        · exact ha (hfirst b hb hpasses)

end Access

open Access

namespace LineTable

/-! ## Conversions made of accesses -/

/-- The offset that is reached from `offset` by reading on, character by character, while columns
remain and the content of the line, which stops at `stop`, goes on. -/
def readOn (encoding : ColumnEncoding) (stop offset columns : Nat) : List Char → Nat
  | [] => offset
  | c :: rest =>
    if 0 < columns ∧ offset < stop ∧ encoding.width c ≤ columns then
      readOn encoding stop (offset + 1) (columns - encoding.width c) rest
    else offset

/-- The offset of a position, read from the start of its line on. -/
def guardedOffset? (t : LineTable) (p : Position) : Option Nat :=
  match t.lines[p.line.toNat]? with
  | none => some t.text.length
  | some line => do
    let ahead ← charactersFrom? t.text line.start
    return readOn t.encoding line.stop line.start p.character.toNat ahead

/-- The position of an offset, with the slice of its line before it. There has to be such a line. -/
def guardedPosition? (t : LineTable) (offset : Nat) : Option Position := do
  let reached := min offset t.text.length
  let started ← countLeading? (·.start ≤ reached) t.lines
  let line ← t.lines[started - 1]?
  let before ← slice? t.text line.start (min reached line.stop)
  return ⟨.ofNat (started - 1), .ofNat (t.encoding.lengthOf before)⟩

theorem readOn_eq (encoding : ColumnEncoding) (stop offset columns : Nat) (text : List Char) :
    readOn encoding stop offset columns text =
      offset + charactersWithin encoding columns (text.take (stop - offset)) := by
  induction text generalizing offset columns with
  | nil => simp [readOn, charactersWithin]
  | cons c rest ih =>
      rw [readOn]
      by_cases hstop : offset < stop
      · obtain ⟨left, hleft⟩ : ∃ left, stop - offset = left + 1 := ⟨stop - offset - 1, by omega⟩
        have hwidth := encoding.width_pos c
        have hnext : stop - (offset + 1) = left := by omega
        rw [hleft, List.take_succ_cons, charactersWithin]
        by_cases hfits : encoding.width c ≤ columns
        · rw [if_pos ⟨by omega, hstop, hfits⟩, if_pos hfits, ih, hnext]
          omega
        · rw [if_neg fun h => hfits h.2.2, if_neg hfits, Nat.add_zero]
      · rw [if_neg fun h => hstop h.2.1, Nat.sub_eq_zero_of_le (Nat.le_of_not_lt hstop),
          List.take_zero, charactersWithin, Nat.add_zero]

/-- Every position is read within the text. -/
theorem guardedOffset?_ofText (text : List Char) (encoding : ColumnEncoding) (p : Position) :
    (ofText text encoding).guardedOffset? p = some ((ofText text encoding).offset p) := by
  rw [guardedOffset?]
  cases hfound : (ofText text encoding).lines[p.line.toNat]? with
  | none =>
      have hend := offset_of_lineCount_le (List.getElem?_eq_none_iff.mp hfound)
      exact congrArg some hend.symm
  | some line =>
      have hcontent := content_of_getElem? hfound
      have hstart : line.start ≤ (ofText text encoding).text.length :=
        Nat.le_trans hcontent.start_le_stop hcontent.stop_le_length
      rw [offset_of_line hfound, contentUpTo, Nat.min_self, List.extract_eq_take_drop,
        ← readOn_eq]
      simp only [charactersFrom?_eq_some hstart]
      rfl

/-- The lines that start at an offset or before it are the first of the table. -/
theorem parted_lines (text : List Char) (encoding : ColumnEncoding) (offset : Nat) :
    (ofText text encoding).lines.Pairwise fun line later =>
      decide (later.start ≤ offset) = true → decide (line.start ≤ offset) = true := by
  have hdivided := linesFrom_ofText text encoding
  refine hdivided.pairwise.imp_of_mem fun {line later} hline _ hapart => ?_
  have hordered := (hdivided.content_of_mem hline).1.start_le_stop
  simp only [decide_eq_true_eq]
  omega

/-- Every offset is told as a position on a line that is there, from a slice of the text. -/
theorem guardedPosition?_ofText (text : List Char) (encoding : ColumnEncoding) (offset : Nat) :
    (ofText text encoding).guardedPosition? offset =
      some ((ofText text encoding).position offset) := by
  let t := ofText text encoding
  let reached := min offset text.length
  have hwithin : reached ≤ text.length := Nat.min_le_right _ _
  obtain ⟨number, line, falls⟩ := exists_fallsOn encoding hwithin
  have hcontent := content_of_getElem? falls.found
  have hline : t.lines[t.lineAt reached]? = some line := falls.counted.symm ▸ falls.found
  have hslice : slice? text line.start (min reached line.stop) =
      some (t.contentUpTo line reached) :=
    slice?_eq_some (Nat.le_min.mpr ⟨falls.start_le, hcontent.start_le_stop⟩)
      (Nat.le_trans (Nat.min_le_right _ _) hcontent.stop_le_length)
  have hposition : t.position offset =
      match t.lines[t.lineAt reached]? with
      | none => Position.origin
      | some line =>
        ⟨.ofNat (t.lineAt reached), .ofNat (encoding.lengthOf (t.contentUpTo line reached))⟩ := rfl
  calc t.guardedPosition? offset
      = (some (t.lines.takeWhile (·.start ≤ reached)).length).bind fun started =>
          t.lines[started - 1]?.bind fun line =>
            (slice? text line.start (min reached line.stop)).bind fun before =>
              some ⟨.ofNat (started - 1), .ofNat (encoding.lengthOf before)⟩ := by
        rw [← countLeading?_eq_some (parted_lines text encoding reached)]
        rfl
    _ = t.lines[t.lineAt reached]?.bind fun line =>
          (slice? text line.start (min reached line.stop)).bind fun before =>
            some ⟨.ofNat (t.lineAt reached), .ofNat (encoding.lengthOf before)⟩ := rfl
    _ = some (t.position offset) := by
        rw [hposition, hline, Option.bind_some, hslice, Option.bind_some]

end LineTable

end CodeInsight

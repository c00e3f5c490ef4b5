/-
# The one division of a text into lines

What the lines of a text have to be like can be said row by row, without a word about how
they are found: the first starts with the text, the last stops with it, each runs over
characters that end no line, and between a row and the next stands one terminator. There
is no choice in this. `Divides` has one solution for every text, and the lines of a line
table are it.

So line feed and carriage return are the only characters that end lines. All others, those
that Unicode calls separators of lines or paragraphs among them, are content of some line.
-/

import CodeInsight.Proofs.Text.Agreement

namespace CodeInsight

variable {text : List Char} {start stop next i : Nat} {lines : List LineExtent}

/-- `Divides text start lines` says of every row of `lines` what the lines of a text from `start` on
have to be like. -/
structure Divides (text : List Char) (start : Nat) (lines : List LineExtent) : Prop where
  /-- There is a first line, and it starts where it should. -/
  first : lines.head?.map LineExtent.start = some start
  /-- There is a last line, and it stops with the text. -/
  last : lines.getLast?.map LineExtent.stop = some text.length
  ordered : ∀ line ∈ lines, line.start ≤ line.stop
  /-- No character of a line's content ends a line. -/
  plain : ∀ line ∈ lines, ∀ i, line.start ≤ i → i < line.stop →
    text[i]? ≠ some '\n' ∧ text[i]? ≠ some '\r'
  /-- From where a line stops up to where the next one starts is one terminator. -/
  apart : ∀ number line later, lines[number]? = some line → lines[number + 1]? = some later →
    IsTerminator text line.stop later.start

/-! ## Characters of terminators -/

namespace IsTerminator

theorem stop_lt_length (terminator : IsTerminator text stop next) : stop < text.length := by
  rcases terminator.ends with hends | hends
  · exact (List.getElem?_eq_some_iff.mp hends).1
  · exact (List.getElem?_eq_some_iff.mp hends).1

/-- Every character of a terminator is one of the two that end lines. -/
theorem ends_of_mem (terminator : IsTerminator text stop next) (hstop : stop ≤ i)
    (hnext : i < next) : text[i]? = some '\n' ∨ text[i]? = some '\r' := by
  rcases Nat.eq_or_lt_of_le hstop with rfl | hlt
  · exact terminator.ends
  · exact .inl (terminator.splits hlt hnext).2.2.2

end IsTerminator

/-! ## From rows to lines that follow each other -/

namespace Divides

variable {line later : LineExtent}

/-- A first line that stops within the text is content. -/
theorem isContent_head (divides : Divides text start (line :: lines))
    (within : line.stop ≤ text.length) : IsContent text line.start line.stop :=
  ⟨divides.ordered line List.mem_cons_self, within, divides.plain line List.mem_cons_self⟩

/-- What is left without the first line starts behind the terminator of that line. -/
theorem tail (divides : Divides text start (line :: later :: lines)) :
    Divides text later.start (later :: lines) where
  first := rfl
  last := by rw [← divides.last, List.getLast?_cons_cons]
  ordered l hl := divides.ordered l (List.mem_cons_of_mem _ hl)
  plain l hl := divides.plain l (List.mem_cons_of_mem _ hl)
  apart number := divides.apart (number + 1)

theorem linesFrom (divides : Divides text start lines) : LinesFrom text start lines := by
  induction lines generalizing start with
  | nil => cases divides.first
  | cons line lines ih =>
      obtain rfl : line.start = start := Option.some.inj divides.first
      cases lines with
      | nil =>
          have hstop : line.stop = text.length := Option.some.inj divides.last
          have hcontent := divides.isContent_head (Nat.le_of_eq hstop)
          rw [hstop] at hcontent
          have hlast : LinesFrom text line.start [⟨line.start, text.length⟩] := .last hcontent
          rwa [← hstop] at hlast
      | cons later lines =>
          have hterminator : IsTerminator text line.stop later.start :=
            divides.apart 0 line later rfl rfl
          have hcontent := divides.isContent_head (Nat.le_of_lt hterminator.stop_lt_length)
          exact .next hcontent hterminator (ih divides.tail)

end Divides

/-! ## From lines that follow each other to rows -/

namespace LinesFrom

theorem head?_start (divided : LinesFrom text start lines) :
    lines.head?.map LineExtent.start = some start := by
  cases divided <;> rfl

theorem divides (divided : LinesFrom text start lines) : Divides text start lines := by
  refine ⟨divided.head?_start, ?_, ?_, ?_, ?_⟩
  · induction divided with
    | last => rfl
    | next content terminator rest ih =>
        cases rest with
        | last => rfl
        | next => rwa [List.getLast?_cons_cons]
  · exact fun line hline => (divided.content_of_mem hline).1.start_le_stop
  · exact fun line hline => (divided.content_of_mem hline).1.plain
  · induction divided with
    | last => exact fun number _ _ _ hlater => nomatch hlater
    | next content terminator rest ih =>
        rintro (_ | number) line later hline hlater
        · cases hline
          have hfirst := rest.head?_start
          rw [List.head?_eq_getElem?] at hfirst
          rw [List.getElem?_cons_succ] at hlater
          rw [hlater] at hfirst
          cases hfirst
          exact terminator
        · exact ih number line later hline hlater

/-- A text has one list of lines. -/
theorem unique {lines' : List LineExtent} (divided : LinesFrom text start lines)
    (divided' : LinesFrom text start lines') : lines' = lines := by
  induction divided generalizing lines' with
  | last content =>
      cases divided' with
      | last => rfl
      | next content' terminator' rest' =>
          -- The only line would have to be followed by another one.
          obtain ⟨rest, hlines, hrest⟩ := (LinesFrom.last content).eq_cons content' terminator'
          cases hlines
          cases hrest
  | next content terminator rest ih =>
      obtain ⟨rest', rfl, hrest'⟩ := divided'.eq_cons content terminator
      rw [ih hrest']

/-- What ends no line is content of some line. -/
theorem exists_content (divided : LinesFrom text start lines) (hstart : start ≤ i)
    (within : i < text.length) (plain : text[i]? ≠ some '\n' ∧ text[i]? ≠ some '\r') :
    ∃ line ∈ lines, line.start ≤ i ∧ i < line.stop := by
  induction divided with
  | last content => exact ⟨_, List.mem_singleton_self _, hstart, within⟩
  | @next start stop next lines content terminator rest ih =>
      by_cases hnext : next ≤ i
      · obtain ⟨line, hline, hon⟩ := ih hnext
        exact ⟨line, List.mem_cons_of_mem _ hline, hon⟩
      · refine ⟨⟨start, stop⟩, List.mem_cons_self, hstart, Nat.lt_of_not_le fun hstop => ?_⟩
        have hends := terminator.ends_of_mem hstop (Nat.lt_of_not_le hnext)
        exact hends.elim plain.1 plain.2

end LinesFrom

theorem divides_iff_linesFrom : Divides text start lines ↔ LinesFrom text start lines :=
  ⟨Divides.linesFrom, LinesFrom.divides⟩

namespace LineTable

/-- **The lines of a text are its only division.** Of all lists of lines there is one that divides
the text, and that is the one of the line table, in whatever encoding columns are counted. The
characters on its lines are all those that are neither a line feed nor a carriage return. -/
theorem lines_are_only_division (text : List Char) (encoding : ColumnEncoding) :
    (∀ lines, Divides text 0 lines ↔ lines = (ofText text encoding).lines) ∧
    ∀ i c, text[i]? = some c →
      ((c ≠ '\n' ∧ c ≠ '\r') ↔
        ∃ line ∈ (ofText text encoding).lines, line.start ≤ i ∧ i < line.stop) := by
  have hdivided := linesFrom_ofText text encoding
  refine ⟨fun lines => ?_, fun i c hc => ?_⟩
  · rw [divides_iff_linesFrom]
    exact ⟨hdivided.unique, fun hlines => hlines ▸ hdivided⟩
  · have hplain : (text[i]? ≠ some '\n' ∧ text[i]? ≠ some '\r') ↔ c ≠ '\n' ∧ c ≠ '\r' := by
      simp [hc]
    rw [← hplain]
    constructor
    · exact hdivided.exists_content (Nat.zero_le i) (List.getElem?_eq_some_iff.mp hc).1
    · rintro ⟨line, hline, hstart, hstop⟩
      exact (hdivided.content_of_mem hline).1.plain i hstart hstop

/-- Terminators one after the other, and one at the very end. A carriage return may not be parted
from its line feed. Behind the letter stand five characters that are taken for ends of lines
elsewhere. -/
theorem lines_are_only_division_of_terminators :
    let text := ['\r', '\r', '\n', '\n', '\r', 'a', '\x85', '\u2028', '\u2029', '\x0b', '\x0c',
      '\r']
    let lines : List LineExtent := [⟨0, 0⟩, ⟨1, 1⟩, ⟨3, 3⟩, ⟨4, 4⟩, ⟨5, 11⟩, ⟨12, 12⟩]
    Divides text 0 lines ∧ (∀ other, Divides text 0 other → other = lines) ∧
      ¬ Divides text 0 [⟨0, 0⟩, ⟨1, 1⟩, ⟨2, 2⟩, ⟨3, 3⟩, ⟨4, 4⟩, ⟨5, 11⟩, ⟨12, 12⟩] ∧
      ∀ i ∈ [6, 7, 8, 9, 10], ∃ line ∈ lines, line.start ≤ i ∧ i < line.stop := by
  intro text lines
  have hlines : (ofText text .utf16).lines = lines := rfl
  obtain ⟨honly, hcontent⟩ := lines_are_only_division text .utf16
  rw [hlines] at honly hcontent
  refine ⟨(honly lines).mpr rfl, fun other => (honly other).mp, ?_, ?_⟩
  · rw [honly]
    decide
  · intro i hi
    have hplain : ∀ i ∈ [6, 7, 8, 9, 10], ∃ c, text[i]? = some c ∧ c ≠ '\n' ∧ c ≠ '\r' := by
      simp [text]
    obtain ⟨c, hc, hneither⟩ := hplain i hi
    exact (hcontent i c hc).mp hneither

end LineTable

end CodeInsight

/-
# How a text divides into lines

Every line runs over characters that end no line, from the end of one terminator to
the beginning of the next or to the end of the text. `LinesFrom` says this of a list
of lines, and `linesFrom_scan` that the lines of a line table are of this form. What
else there is to say about them follows by induction on the lines, without another
look at how they are found.

Lines are apart from each other, and they cover the text but for the offsets between
the two characters of a carriage return with a line feed.
-/

import CodeInsight.Text.LineTable

namespace CodeInsight

/-- The offset falls between a carriage return and the line feed that belongs to it. -/
def SplitsTerminator (text : List Char) (offset : Nat) : Prop :=
  0 < offset ∧ text[offset - 1]? = some '\r' ∧ text[offset]? = some '\n'

instance (text : List Char) (offset : Nat) : Decidable (SplitsTerminator text offset) :=
  inferInstanceAs (Decidable (_ ∧ _))

/-- None of the characters from `start` up to `stop` ends a line. -/
structure IsContent (text : List Char) (start stop : Nat) : Prop where
  start_le_stop : start ≤ stop
  stop_le_length : stop ≤ text.length
  plain : ∀ i, start ≤ i → i < stop → text[i]? ≠ some '\n' ∧ text[i]? ≠ some '\r'

/-- What stands from `stop` up to `next` ends a line. A carriage return does so alone only if no line
feed follows. -/
inductive IsTerminator (text : List Char) (stop : Nat) : Nat → Prop
  | lineFeed (feed : text[stop]? = some '\n') : IsTerminator text stop (stop + 1)
  | carriageReturn (ret : text[stop]? = some '\r') (alone : text[stop + 1]? ≠ some '\n') :
      IsTerminator text stop (stop + 1)
  | both (ret : text[stop]? = some '\r') (feed : text[stop + 1]? = some '\n') :
      IsTerminator text stop (stop + 2)

/-- `LinesFrom text start lines` says that `lines` are the lines of a text from `start` on. -/
inductive LinesFrom (text : List Char) : Nat → List LineExtent → Prop
  | last {start : Nat} (content : IsContent text start text.length) :
      LinesFrom text start [⟨start, text.length⟩]
  | next {start stop next : Nat} {lines : List LineExtent} (content : IsContent text start stop)
      (terminator : IsTerminator text stop next) (rest : LinesFrom text next lines) :
      LinesFrom text start (⟨start, stop⟩ :: lines)

/-! ## Content and terminators -/

theorem IsContent.empty {text : List Char} {start : Nat} (within : start ≤ text.length) :
    IsContent text start start :=
  ⟨Nat.le_refl _, within, fun _ hstart hstop => absurd hstop (Nat.not_lt.mpr hstart)⟩

/-- One more character that ends no line is content as well. -/
theorem IsContent.extend {text : List Char} {start stop : Nat} {c : Char}
    (content : IsContent text start stop) (found : text[stop]? = some c)
    (plain : ¬ (c = '\n' ∨ c = '\r')) : IsContent text start (stop + 1) where
  start_le_stop := Nat.le_succ_of_le content.start_le_stop
  stop_le_length := (List.getElem?_eq_some_iff.mp found).1
  plain i hstart hstop := by
    rcases Nat.lt_or_eq_of_le (Nat.le_of_lt_succ hstop) with hi | rfl
    · exact content.plain i hstart hi
    · simpa [found, not_or] using plain

/-- No offset within content, its end included, splits a terminator, unless its start does. -/
theorem IsContent.not_splits {text : List Char} {start stop offset : Nat}
    (content : IsContent text start stop) (whole : ¬ SplitsTerminator text start)
    (hstart : start ≤ offset) (hstop : offset ≤ stop) : ¬ SplitsTerminator text offset := by
  rcases Nat.eq_or_lt_of_le hstart with rfl | hlt
  · exact whole
  · rintro ⟨-, hreturn, -⟩
    exact (content.plain (offset - 1) (by omega) (by omega)).2 hreturn

theorem IsTerminator.lt {text : List Char} {stop next : Nat}
    (terminator : IsTerminator text stop next) : stop < next := by
  cases terminator <;> omega

/-- A terminator ends where no other one is split. -/
theorem IsTerminator.not_splits {text : List Char} {stop next : Nat}
    (terminator : IsTerminator text stop next) : ¬ SplitsTerminator text next := by
  rintro ⟨-, hreturn, hfeed⟩
  cases terminator with
  | lineFeed feed => simp [feed] at hreturn
  | carriageReturn ret alone => exact alone hfeed
  | both ret feed => simp [feed] at hreturn

/-- The only place inside a terminator is that between its two characters. -/
theorem IsTerminator.splits {text : List Char} {stop next offset : Nat}
    (terminator : IsTerminator text stop next) (hstop : stop < offset) (hnext : offset < next) :
    offset = stop + 1 ∧ SplitsTerminator text offset := by
  cases terminator with
  | lineFeed feed => omega
  | carriageReturn ret alone => omega
  | both ret feed =>
      obtain rfl : offset = stop + 1 := by omega
      exact ⟨rfl, Nat.succ_pos _, ret, feed⟩

/-! ## The lines of a line table -/

/-- The first character of the rest of a text, and the rest behind it. -/
theorem of_drop_eq_cons {text rest : List Char} {offset : Nat} {c : Char}
    (ahead : text.drop offset = c :: rest) :
    text[offset]? = some c ∧ text.drop (offset + 1) = rest := by
  constructor
  · rw [← List.head?_drop, ahead, List.head?_cons]
  · rw [← List.tail_drop, ahead, List.tail_cons]

/-- Scanning finds the lines of the text, the line under way included. -/
theorem linesFrom_scan {text rest : List Char} {start offset : Nat}
    (underWay : IsContent text start offset) (ahead : text.drop offset = rest) :
    LinesFrom text start (LineExtent.scan start offset rest) := by
  fun_induction LineExtent.scan start offset rest with
  | case1 start offset =>
      have hend : offset = text.length :=
        Nat.le_antisymm underWay.stop_le_length (List.drop_eq_nil_iff.mp ahead)
      subst hend
      exact .last underWay
  | case2 start offset rest ih =>
      obtain ⟨hreturn, hbehind⟩ := of_drop_eq_cons ahead
      obtain ⟨hfeed, hrest⟩ := of_drop_eq_cons hbehind
      have hwithin : offset + 2 ≤ text.length := (List.getElem?_eq_some_iff.mp hfeed).1
      exact .next underWay (.both hreturn hfeed) (ih (.empty hwithin) hrest)
  | case3 start offset c rest hpair hterminator ih =>
      obtain ⟨hc, hrest⟩ := of_drop_eq_cons ahead
      have hwithin : offset + 1 ≤ text.length := (List.getElem?_eq_some_iff.mp hc).1
      have hlines := ih (.empty hwithin) hrest
      rcases hterminator with rfl | rfl
      · exact .next underWay (.lineFeed hc) hlines
      · refine .next underWay (.carriageReturn hc ?_) hlines
        intro hfeed
        rw [← List.head?_drop, hrest] at hfeed
        obtain ⟨behind, hbehind⟩ := List.head?_eq_some_iff.mp hfeed
        exact hpair behind rfl hbehind
  | case4 start offset c rest hpair hcontent ih =>
      obtain ⟨hc, hrest⟩ := of_drop_eq_cons ahead
      exact ih (underWay.extend hc hcontent) hrest

theorem linesFrom_ofText (text : List Char) (encoding : ColumnEncoding) :
    LinesFrom text 0 (LineTable.ofText text encoding).lines :=
  linesFrom_scan (.empty (Nat.zero_le _)) rfl

namespace LinesFrom

variable {text : List Char} {start offset : Nat} {lines : List LineExtent} {line : LineExtent}

/-- Each line is content and starts no earlier than the first. -/
theorem content_of_mem (divided : LinesFrom text start lines) (hline : line ∈ lines) :
    IsContent text line.start line.stop ∧ start ≤ line.start := by
  induction divided with
  | last content =>
      cases List.mem_singleton.mp hline
      exact ⟨content, Nat.le_refl _⟩
  | next content terminator rest ih =>
      rcases List.mem_cons.mp hline with rfl | hrest
      · exact ⟨content, Nat.le_refl _⟩
      · obtain ⟨hcontent, hstart⟩ := ih hrest
        have hbefore := content.start_le_stop
        have hbehind := terminator.lt
        exact ⟨hcontent, by omega⟩

/-- Each line stops before every later one starts. -/
theorem pairwise (divided : LinesFrom text start lines) :
    lines.Pairwise fun line later => line.stop < later.start := by
  induction divided with
  | last content => exact List.pairwise_singleton _ _
  | next content terminator rest ih =>
      refine List.pairwise_cons.mpr ⟨?_, ih⟩
      intro later hlater
      exact Nat.lt_of_lt_of_le terminator.lt (rest.content_of_mem hlater).2

/-- No offset on a line splits a terminator. -/
theorem not_splits (divided : LinesFrom text start lines) (whole : ¬ SplitsTerminator text start)
    (hline : line ∈ lines) (hstart : line.start ≤ offset) (hstop : offset ≤ line.stop) :
    ¬ SplitsTerminator text offset := by
  induction divided with
  | last content =>
      cases List.mem_singleton.mp hline
      exact content.not_splits whole hstart hstop
  | next content terminator rest ih =>
      rcases List.mem_cons.mp hline with rfl | hrest
      · exact content.not_splits whole hstart hstop
      · exact ih terminator.not_splits hrest

/-- Every offset from the first line on falls on a line, unless it splits the terminator behind one.
Of all lines that start no later, this is the last. -/
theorem exists_line (divided : LinesFrom text start lines) (hstart : start ≤ offset)
    (within : offset ≤ text.length) :
    ∃ number line, lines[number]? = some line ∧
      (lines.takeWhile (·.start ≤ offset)).length = number + 1 ∧ line.start ≤ offset ∧
      (offset ≤ line.stop ∨ offset = line.stop + 1 ∧ SplitsTerminator text offset) := by
  induction divided with
  | @last start content =>
      refine ⟨0, ⟨start, text.length⟩, rfl, ?_, hstart, .inl within⟩
      simp [hstart]
  | @next start stop next lines content terminator rest ih =>
      by_cases hnext : next ≤ offset
      · obtain ⟨number, line, hfound, hcount, hline⟩ := ih hnext
        refine ⟨number + 1, line, hfound, ?_, hline⟩
        simp [hstart, hcount]
      · have hbefore : offset < next := Nat.lt_of_not_le hnext
        refine ⟨0, ⟨start, stop⟩, rfl, ?_, hstart, ?_⟩
        · have hlater : lines.takeWhile (·.start ≤ offset) = [] := by
            cases lines with
            | nil => rfl
            | cons first lines =>
                have hfirst := (rest.content_of_mem List.mem_cons_self).2
                rw [List.takeWhile_cons_of_neg]
                simp only [decide_eq_true_eq]
                omega
          simp [hstart, hlater]
        · rcases Nat.lt_or_ge stop offset with hstop | hstop
          · exact .inr (terminator.splits hstop hbefore)
          · exact .inl hstop

end LinesFrom

end CodeInsight

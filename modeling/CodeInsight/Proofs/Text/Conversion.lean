/-
# Positions and offsets

A position is read as an offset by using up the units of its column, and an offset is
told as a position by adding units up. The two walks are adjoint: an offset is told as
a position no later than `p` just if it is no later than the offset that `p` is read
as. All that is rounded or cut off on the way from positions to offsets follows from
this.

The way from an offset to its position and back loses nothing but the place inside a
terminator and what lies behind the text. Both need line numbers and columns to fit
into the 32 bits of a position.
-/

import CodeInsight.Proofs.Text.Lines
import CodeInsight.Proofs.Text.PositionOrder

namespace CodeInsight

namespace LineTable

/-! ## Columns -/

/-- Characters fit into some columns just if their units do. -/
theorem le_charactersWithin_iff {encoding : ColumnEncoding} {text : List Char}
    {count columns : Nat} (within : count ≤ text.length) :
    count ≤ charactersWithin encoding columns text ↔
      encoding.lengthOf (text.take count) ≤ columns := by
  fun_induction charactersWithin encoding columns text generalizing count with
  | case1 columns =>
      obtain rfl : count = 0 := Nat.le_zero.mp within
      simp
  | case2 columns c rest hfits ih =>
      cases count with
      | zero => simp
      | succ count =>
          rw [Nat.succ_le_succ_iff, ih (Nat.le_of_succ_le_succ within), List.take_succ_cons,
            ColumnEncoding.lengthOf_cons]
          omega
  | case3 columns c rest hwide =>
      cases count with
      | zero => simp
      | succ count =>
          rw [List.take_succ_cons, ColumnEncoding.lengthOf_cons]
          omega

/-- As many characters as there are fit into their own units, and no more. -/
theorem charactersWithin_lengthOf_take (encoding : ColumnEncoding) (text : List Char)
    (count : Nat) :
    charactersWithin encoding (encoding.lengthOf (text.take count)) text =
      min count text.length := by
  induction text generalizing count with
  | nil => simp [charactersWithin]
  | cons c rest ih =>
      cases count with
      | zero => simp [charactersWithin, Nat.ne_of_gt (encoding.width_pos c)]
      | succ count => simp [charactersWithin, ih, Nat.succ_min_succ]

theorem lengthOf_take_le (encoding : ColumnEncoding) (text : List Char) (count : Nat) :
    encoding.lengthOf (text.take count) ≤ encoding.lengthOf text := by
  induction text generalizing count with
  | nil => simp
  | cons c rest ih =>
      cases count with
      | zero => simp
      | succ count => simpa using ih count

theorem charactersWithin_le_length (encoding : ColumnEncoding) (columns : Nat)
    (text : List Char) : charactersWithin encoding columns text ≤ text.length := by
  fun_induction charactersWithin encoding columns text with
  | case1 => exact Nat.zero_le _
  | case2 columns c rest hfits ih => exact Nat.succ_le_succ ih
  | case3 => exact Nat.zero_le _

/-! ## Single lines -/

variable {text : List Char} {encoding : ColumnEncoding} {offset number : Nat} {line : LineExtent}
  {p q : Position}

theorem length_contentUpTo (content : IsContent text line.start line.stop) :
    ((ofText text encoding).contentUpTo line line.stop).length = line.stop - line.start := by
  have hwithin := content.stop_le_length
  rw [contentUpTo, Nat.min_self, List.extract_eq_take_drop, List.length_take, List.length_drop]
  show min _ (text.length - line.start) = _
  omega

theorem contentUpTo_eq_take (t : LineTable) (line : LineExtent) (offset : Nat) :
    t.contentUpTo line offset = (t.contentUpTo line line.stop).take (offset - line.start) := by
  rw [contentUpTo, contentUpTo, Nat.min_self, List.extract_eq_take_drop,
    List.extract_eq_take_drop, List.take_take]
  congr 1
  omega

theorem content_of_getElem? (found : (ofText text encoding).lines[number]? = some line) :
    IsContent text line.start line.stop :=
  ((linesFrom_ofText text encoding).content_of_mem (List.mem_of_getElem? found)).1

/-- No offset on a line is inside a terminator. -/
theorem not_splits_of_line (found : (ofText text encoding).lines[number]? = some line)
    (hstart : line.start ≤ offset) (hstop : offset ≤ line.stop) :
    ¬ SplitsTerminator text offset := by
  have hbeginning : ¬ SplitsTerminator text 0 := fun splits => absurd splits.1 (Nat.lt_irrefl 0)
  exact (linesFrom_ofText text encoding).not_splits hbeginning (List.mem_of_getElem? found) hstart
    hstop

/-- What a position on a line is read as. -/
theorem offset_of_line (found : (ofText text encoding).lines[p.line.toNat]? = some line) :
    (ofText text encoding).offset p =
      line.start + charactersWithin encoding p.character.toNat
        ((ofText text encoding).contentUpTo line line.stop) := by
  rw [LineTable.offset, found]
  rfl

/-- A position behind the last line is read as the end of the text. -/
theorem offset_of_lineCount_le (behind : (ofText text encoding).lineCount ≤ p.line.toNat) :
    (ofText text encoding).offset p = text.length := by
  rw [LineTable.offset, List.getElem?_eq_none behind]
  rfl

theorem offset_mem_line (found : (ofText text encoding).lines[p.line.toNat]? = some line) :
    line.start ≤ (ofText text encoding).offset p ∧
      (ofText text encoding).offset p ≤ line.stop := by
  have hcontent := content_of_getElem? found
  have hordered := hcontent.start_le_stop
  have hwithin := charactersWithin_le_length encoding p.character.toNat
    ((ofText text encoding).contentUpTo line line.stop)
  rw [length_contentUpTo hcontent] at hwithin
  rw [offset_of_line found]
  omega

/-- Every position has its offset within the text, however far behind it may be. -/
theorem offset_le_length (text : List Char) (encoding : ColumnEncoding) (p : Position) :
    (ofText text encoding).offset p ≤ text.length := by
  cases hfound : (ofText text encoding).lines[p.line.toNat]? with
  | none =>
      exact Nat.le_of_eq (offset_of_lineCount_le (List.getElem?_eq_none_iff.mp hfound))
  | some line =>
      exact Nat.le_trans (offset_mem_line hfound).2 (content_of_getElem? hfound).stop_le_length

/-- No position is read as an offset inside a terminator. -/
theorem not_splits_offset (text : List Char) (encoding : ColumnEncoding) (p : Position) :
    ¬ SplitsTerminator text ((ofText text encoding).offset p) := by
  cases hfound : (ofText text encoding).lines[p.line.toNat]? with
  | none =>
      rw [offset_of_lineCount_le (List.getElem?_eq_none_iff.mp hfound)]
      rintro ⟨-, -, hfeed⟩
      simp at hfeed
  | some line =>
      obtain ⟨hstart, hstop⟩ := offset_mem_line hfound
      exact not_splits_of_line hfound hstart hstop

/-! ## Telling positions -/

/-- Line numbers and columns of a text fit into the words of a position. -/
structure FitsWords (t : LineTable) : Prop where
  lineCount : t.lineCount < UInt32.size
  width : ∀ line ∈ t.lines, t.encoding.lengthOf (t.contentUpTo line line.stop) < UInt32.size

instance (t : LineTable) : Decidable t.FitsWords :=
  decidable_of_iff
    (t.lineCount < UInt32.size ∧
      ∀ line ∈ t.lines, t.encoding.lengthOf (t.contentUpTo line line.stop) < UInt32.size)
    ⟨fun ⟨lineCount, width⟩ => ⟨lineCount, width⟩, fun ⟨lineCount, width⟩ => ⟨lineCount, width⟩⟩

/-- `t.FallsOn offset number line` says that an offset is told as a position on a line, which it is not
before and at most one place behind. -/
structure FallsOn (t : LineTable) (offset number : Nat) (line : LineExtent) : Prop where
  found : t.lines[number]? = some line
  counted : t.lineAt offset = number
  start_le : line.start ≤ offset
  le_stop : offset ≤ line.stop ∨ offset = line.stop + 1 ∧ SplitsTerminator t.text offset

theorem exists_fallsOn (encoding : ColumnEncoding) (within : offset ≤ text.length) :
    ∃ number line, (ofText text encoding).FallsOn offset number line := by
  obtain ⟨number, line, hfound, hcount, hstart, hstop⟩ :=
    (linesFrom_ofText text encoding).exists_line (Nat.zero_le offset) within
  refine ⟨number, line, hfound, ?_, hstart, hstop⟩
  rw [lineAt, hcount, Nat.add_sub_cancel]

theorem FallsOn.position_eq (falls : (ofText text encoding).FallsOn offset number line)
    (within : offset ≤ text.length) :
    (ofText text encoding).position offset =
      ⟨.ofNat number, .ofNat (encoding.lengthOf
        (((ofText text encoding).contentUpTo line line.stop).take (offset - line.start)))⟩ := by
  have hreached : min offset (ofText text encoding).text.length = offset := Nat.min_eq_left within
  rw [position, hreached, falls.counted, falls.found, ← contentUpTo_eq_take]
  rfl

/-- The words of the position of an offset on a line, read as numbers. -/
theorem FallsOn.toNat_position (falls : (ofText text encoding).FallsOn offset number line)
    (fits : (ofText text encoding).FitsWords) (within : offset ≤ text.length) :
    ((ofText text encoding).position offset).line.toNat = number ∧
      ((ofText text encoding).position offset).character.toNat =
        encoding.lengthOf
          (((ofText text encoding).contentUpTo line line.stop).take (offset - line.start)) := by
  have hnumber : number < (ofText text encoding).lineCount :=
    (List.getElem?_eq_some_iff.mp falls.found).1
  have hwidth := Nat.lt_of_le_of_lt (lengthOf_take_le encoding _ (offset - line.start))
    (fits.width line (List.mem_of_getElem? falls.found))
  rw [falls.position_eq within]
  exact ⟨UInt32.toNat_ofNat_of_lt' (Nat.lt_trans hnumber fits.lineCount),
    UInt32.toNat_ofNat_of_lt' hwidth⟩

/-! ## Both ways -/

/-- A line stops before any later one starts. -/
theorem stop_lt_start {i j : Nat} {later : LineExtent}
    (found : (ofText text encoding).lines[i]? = some line)
    (foundLater : (ofText text encoding).lines[j]? = some later) (hij : i < j) :
    line.stop < later.start := by
  obtain ⟨hi, rfl⟩ := List.getElem?_eq_some_iff.mp found
  obtain ⟨hj, rfl⟩ := List.getElem?_eq_some_iff.mp foundLater
  exact List.pairwise_iff_getElem.mp (linesFrom_ofText text encoding).pairwise i j hi hj hij

/-- Telling offsets is adjoint to reading positions. -/
theorem position_le_iff (fits : (ofText text encoding).FitsWords) (within : offset ≤ text.length)
    (whole : ¬ SplitsTerminator text offset) (p : Position) :
    (ofText text encoding).position offset ≤ p ↔ offset ≤ (ofText text encoding).offset p := by
  obtain ⟨number, line, falls⟩ := exists_fallsOn encoding within
  have hstart := falls.start_le
  have hstop : offset ≤ line.stop := falls.le_stop.resolve_right fun splits => whole splits.2
  obtain ⟨hline, hcharacter⟩ := falls.toNat_position fits within
  rw [Position.le_iff, hline, hcharacter]
  cases hfound : (ofText text encoding).lines[p.line.toNat]? with
  | none =>
      -- The position is behind the last line, and the end of the text no earlier than the offset.
      have hbehind : (ofText text encoding).lineCount ≤ p.line.toNat :=
        List.getElem?_eq_none_iff.mp hfound
      have hnumber : number < (ofText text encoding).lineCount :=
        (List.getElem?_eq_some_iff.mp falls.found).1
      rw [offset_of_lineCount_le hbehind]
      exact iff_of_true (.inl (Nat.lt_of_lt_of_le hnumber hbehind)) within
  | some other =>
      obtain ⟨hotherStart, hotherStop⟩ := offset_mem_line hfound
      rcases Nat.lt_trichotomy number p.line.toNat with hbefore | hsame | hbehind
      · have hapart := stop_lt_start falls.found hfound hbefore
        exact iff_of_true (.inl hbefore) (by omega)
      · -- On one line it is the units of the column that decide.
        obtain rfl : line = other := by
          rw [← hsame, falls.found] at hfound
          exact Option.some.inj hfound
        have hcontent := content_of_getElem? falls.found
        rw [offset_of_line hfound, ← le_charactersWithin_iff]
        · omega
        · rw [length_contentUpTo hcontent]
          omega
      · have hapart := stop_lt_start hfound falls.found hbehind
        exact iff_of_false (by omega) (by omega)

/-- The way from an offset to its position and back leads to the offset, or to the end of the content
of its line if this is earlier. -/
theorem FallsOn.offset_position (falls : (ofText text encoding).FallsOn offset number line)
    (fits : (ofText text encoding).FitsWords) (within : offset ≤ text.length) :
    (ofText text encoding).offset ((ofText text encoding).position offset) =
      min offset line.stop := by
  obtain ⟨hline, hcharacter⟩ := falls.toNat_position fits within
  have hfound := falls.found
  rw [← hline] at hfound
  have hcontent := content_of_getElem? hfound
  have hstart := falls.start_le
  have hordered := hcontent.start_le_stop
  rw [offset_of_line hfound, hcharacter, charactersWithin_lengthOf_take,
    length_contentUpTo hcontent]
  omega

theorem position_of_length_le (behind : text.length ≤ offset) :
    (ofText text encoding).position offset = (ofText text encoding).position text.length := by
  have hreached : min offset (ofText text encoding).text.length =
      min text.length (ofText text encoding).text.length := by
    show min offset text.length = min text.length text.length
    omega
  rw [position, position, hreached]

/-- An offset that splits no terminator is what its position is read as. -/
theorem offset_position_of_whole (fits : (ofText text encoding).FitsWords)
    (within : offset ≤ text.length) (whole : ¬ SplitsTerminator text offset) :
    (ofText text encoding).offset ((ofText text encoding).position offset) = offset := by
  obtain ⟨number, line, falls⟩ := exists_fallsOn encoding within
  have hstop : offset ≤ line.stop := falls.le_stop.resolve_right fun splits => whole splits.2
  rw [falls.offset_position fits within, Nat.min_eq_left hstop]

/-- The offset of a position is also that of its position in another encoding. -/
theorem offset_position_offset {other : ColumnEncoding} (fits : (ofText text other).FitsWords)
    (p : Position) :
    (ofText text other).offset ((ofText text other).position ((ofText text encoding).offset p)) =
      (ofText text encoding).offset p :=
  offset_position_of_whole fits (offset_le_length text encoding p)
    (not_splits_offset text encoding p)

/-! ## Rounding and cutting off -/

theorem offset_mono (fits : (ofText text encoding).FitsWords) (hpq : p ≤ q) :
    (ofText text encoding).offset p ≤ (ofText text encoding).offset q := by
  have hwithin := offset_le_length text encoding p
  have hwhole := not_splits_offset text encoding p
  have hp := (position_le_iff fits hwithin hwhole p).mpr (Nat.le_refl _)
  exact (position_le_iff fits hwithin hwhole q).mp (Position.le_trans hp hpq)

theorem offset_eq_stop (found : (ofText text encoding).lines[p.line.toNat]? = some line)
    (past : encoding.lengthOf ((ofText text encoding).contentUpTo line line.stop) ≤
      p.character.toNat) : (ofText text encoding).offset p = line.stop := by
  have hcontent := content_of_getElem? found
  have hstop := (offset_mem_line found).2
  have hordered := hcontent.start_le_stop
  have hall : ((ofText text encoding).contentUpTo line line.stop).length ≤
      charactersWithin encoding p.character.toNat
        ((ofText text encoding).contentUpTo line line.stop) := by
    rw [le_charactersWithin_iff (Nat.le_refl _), List.take_length]
    exact past
  rw [length_contentUpTo hcontent] at hall
  rw [offset_of_line found] at hstop ⊢
  omega

theorem offset_eq_start_add {count : Nat} {c : Char}
    (found : (ofText text encoding).lines[p.line.toNat]? = some line)
    (character : ((ofText text encoding).contentUpTo line line.stop)[count]? = some c)
    (reached : encoding.lengthOf
      (((ofText text encoding).contentUpTo line line.stop).take count) ≤ p.character.toNat)
    (inside : p.character.toNat < encoding.lengthOf
      (((ofText text encoding).contentUpTo line line.stop).take count) + encoding.width c) :
    (ofText text encoding).offset p = line.start + count := by
  obtain ⟨hcount, rfl⟩ := List.getElem?_eq_some_iff.mp character
  have hfits := (le_charactersWithin_iff (Nat.le_of_lt hcount)).mpr reached
  have hnext : ¬ count + 1 ≤ charactersWithin encoding p.character.toNat
      ((ofText text encoding).contentUpTo line line.stop) := by
    rw [le_charactersWithin_iff hcount, List.take_succ_eq_append_getElem hcount,
      ColumnEncoding.lengthOf_append]
    simpa using inside
  rw [offset_of_line found]
  omega

/-- **Telling positions and reading them are adjoint.** For every offset that splits no terminator,
its position is at or before `p` just if it is at or before the offset of `p`. So offsets grow with
positions; columns behind the content of a line stand for its end, columns inside a character for
the place before it, and lines behind the last for the end of the text. -/
theorem position_offset_adjoint (fits : (ofText text encoding).FitsWords) :
    let t := ofText text encoding
    (∀ (p : Position) (offset : Nat), offset ≤ text.length → ¬ SplitsTerminator text offset →
      (t.position offset ≤ p ↔ offset ≤ t.offset p)) ∧
    (∀ p q : Position, p ≤ q → t.offset p ≤ t.offset q) ∧
    (∀ (p : Position) (line : LineExtent), t.lines[p.line.toNat]? = some line →
      encoding.lengthOf (t.contentUpTo line line.stop) ≤ p.character.toNat →
        t.offset p = line.stop) ∧
    (∀ (p : Position) (line : LineExtent) (count : Nat) (c : Char),
      t.lines[p.line.toNat]? = some line → (t.contentUpTo line line.stop)[count]? = some c →
        encoding.lengthOf ((t.contentUpTo line line.stop).take count) ≤ p.character.toNat →
          p.character.toNat <
              encoding.lengthOf ((t.contentUpTo line line.stop).take count) + encoding.width c →
            t.offset p = line.start + count) ∧
    (∀ p : Position, t.lineCount ≤ p.line.toNat → t.offset p = text.length) :=
  ⟨fun p _ within whole => position_le_iff fits within whole p, fun _ _ => offset_mono fits,
    fun _ _ => offset_eq_stop, fun _ _ _ _ => offset_eq_start_add,
    fun _ => offset_of_lineCount_le⟩

/-- A column between the two units of a character, one behind its line and a line behind the last. -/
theorem position_offset_adjoint_at_surrogates :
    let t := ofText ['a', '😀', '\r', '\n', 'é', '\r'] .utf16
    t.FitsWords ∧ t.position 2 = ⟨0, 3⟩ ∧ (t.position 2 ≤ ⟨0, 2⟩ ↔ 2 ≤ t.offset ⟨0, 2⟩) ∧
      t.offset ⟨0, 2⟩ ≤ t.offset ⟨0, 9⟩ ∧ t.offset ⟨0, 9⟩ = 2 ∧ t.offset ⟨0, 2⟩ = 1 ∧
      t.offset ⟨9, 0⟩ = 6 := by
  intro t
  have hfits : t.FitsWords := by decide
  obtain ⟨hadjoint, hmono, hclamp, hround, hend⟩ := position_offset_adjoint hfits
  exact ⟨hfits, by decide, hadjoint ⟨0, 2⟩ 2 (by decide) (by decide),
    hmono ⟨0, 2⟩ ⟨0, 9⟩ (by decide), hclamp ⟨0, 9⟩ ⟨0, 2⟩ rfl (by decide),
    hround ⟨0, 2⟩ ⟨0, 2⟩ 1 '😀' rfl rfl (by decide) (by decide), hend ⟨9, 0⟩ (by decide)⟩

/-- **Round trip of offsets.** An offset is what its position is read as, but for one inside a
terminator, which comes back to the end of the line, and one behind the text, which comes back to the
end of the text. -/
theorem offset_position_round_trip (fits : (ofText text encoding).FitsWords) (offset : Nat) :
    (ofText text encoding).offset ((ofText text encoding).position offset) =
      if text.length < offset then text.length
      else if SplitsTerminator text offset then offset - 1
      else offset := by
  by_cases hbehind : text.length < offset
  · rw [if_pos hbehind, position_of_length_le (Nat.le_of_lt hbehind)]
    refine offset_position_of_whole fits (Nat.le_refl _) ?_
    rintro ⟨-, -, hfeed⟩
    simp at hfeed
  · have hwithin : offset ≤ text.length := Nat.le_of_not_lt hbehind
    rw [if_neg hbehind]
    by_cases hsplits : SplitsTerminator text offset
    · obtain ⟨number, line, falls⟩ := exists_fallsOn encoding hwithin
      have hbehindLine : ¬ offset ≤ line.stop := fun hstop =>
        not_splits_of_line falls.found falls.start_le hstop hsplits
      obtain ⟨hnext, -⟩ := falls.le_stop.resolve_left hbehindLine
      rw [if_pos hsplits, falls.offset_position fits hwithin]
      omega
    · rw [if_neg hsplits, offset_position_of_whole fits hwithin hsplits]

/-- Between two carriage returns, inside a terminator, behind it and far behind the text. -/
theorem offset_position_round_trip_at_terminators :
    let t := ofText ['\r', '\r', '\n', '😀', '\n', '\r'] .utf8
    t.FitsWords ∧ t.offset (t.position 1) = 1 ∧ SplitsTerminator t.text 2 ∧
      t.offset (t.position 2) = 1 ∧ t.offset (t.position 4) = 4 ∧ t.offset (t.position 99) = 6 := by
  intro t
  have hfits : t.FitsWords := by decide
  have htrip := offset_position_round_trip hfits
  exact ⟨hfits, htrip 1, by decide, htrip 2, htrip 4, htrip 99⟩

end LineTable

end CodeInsight

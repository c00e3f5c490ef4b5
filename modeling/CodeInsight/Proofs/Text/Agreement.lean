/-
# Texts that agree up to an offset

When two texts agree before some offset, their lines agree there as well: a line that
an earlier offset is on has the same number and the same start in both, however the
texts go on. A position that names such an offset exactly is therefore read as the same
offset in both.

It does not suffice that the texts agree up to the offset itself. What stands at an offset
decides whether a carriage return before it ends a line alone.
-/

import CodeInsight.Proofs.Text.Conversion

namespace CodeInsight

variable {text other : List Char} {start stop next limit offset : Nat} {lines : List LineExtent}

/-- The same stands in both texts at every offset before `limit`. If one of them ends before, they
are equal. -/
def AgreeBefore (text other : List Char) (limit : Nat) : Prop :=
  ∀ i < limit, text[i]? = other[i]?

namespace AgreeBefore

theorem refl (text : List Char) (limit : Nat) : AgreeBefore text text limit := fun _ _ => rfl

theorem mono {earlier : Nat} (agree : AgreeBefore text other limit) (le : earlier ≤ limit) :
    AgreeBefore text other earlier :=
  fun i hi => agree i (Nat.lt_of_lt_of_le hi le)

theorem trans {third : List Char} (agree : AgreeBefore text other limit)
    (agree' : AgreeBefore other third limit) : AgreeBefore text third limit :=
  fun i hi => (agree i hi).trans (agree' i hi)

/-- What the one text reaches before `limit`, the other one does as well. -/
theorem le_length (agree : AgreeBefore text other limit) (before : offset < limit)
    (within : offset ≤ text.length) : offset ≤ other.length := by
  refine Nat.le_of_not_lt ?_
  intro hshort
  have hnone : text[other.length]? = none := by
    rw [agree other.length (Nat.lt_trans hshort before), List.getElem?_eq_none (Nat.le_refl _)]
  have hlength : text.length ≤ other.length := List.getElem?_eq_none_iff.mp hnone
  omega

theorem extract_eq (agree : AgreeBefore text other limit) (start : Nat) (le : stop ≤ limit) :
    text.extract start stop = other.extract start stop := by
  apply List.ext_getElem?
  intro i
  rw [List.extract_eq_take_drop, List.extract_eq_take_drop, List.getElem?_take,
    List.getElem?_take, List.getElem?_drop, List.getElem?_drop]
  by_cases hi : i < stop - start
  · rw [if_pos hi, if_pos hi, agree (start + i) (by omega)]
  · rw [if_neg hi, if_neg hi]

theorem isContent (agree : AgreeBefore text other limit) (content : IsContent text start stop)
    (before : stop < limit) : IsContent other start stop where
  start_le_stop := content.start_le_stop
  stop_le_length := agree.le_length before content.stop_le_length
  plain i hstart hstop := by
    rw [← agree i (Nat.lt_trans hstop before)]
    exact content.plain i hstart hstop

theorem isTerminator (agree : AgreeBefore text other limit)
    (terminator : IsTerminator text stop next) (before : next < limit) :
    IsTerminator other stop next := by
  cases terminator with
  | lineFeed feed => exact .lineFeed ((agree stop (by omega)).symm.trans feed)
  | carriageReturn ret alone =>
      refine .carriageReturn ((agree stop (by omega)).symm.trans ret) ?_
      rwa [← agree (stop + 1) before]
  | both ret feed =>
      exact .both ((agree stop (by omega)).symm.trans ret)
        ((agree (stop + 1) (by omega)).symm.trans feed)

end AgreeBefore

/-! ## One line after the other -/

/-- Neither character of a terminator is content. -/
theorem IsTerminator.ends (terminator : IsTerminator text stop next) :
    text[stop]? = some '\n' ∨ text[stop]? = some '\r' := by
  cases terminator with
  | lineFeed feed => exact .inl feed
  | carriageReturn ret alone => exact .inr ret
  | both ret feed => exact .inr ret

/-- Content reaches no further than the first terminator. -/
theorem IsContent.le_of_isTerminator {reached : Nat} (content : IsContent text start reached)
    (terminator : IsTerminator text stop next) (after : start ≤ stop) : reached ≤ stop := by
  refine Nat.le_of_not_lt ?_
  intro hbehind
  obtain ⟨hfeed, hreturn⟩ := content.plain stop after hbehind
  exact terminator.ends.elim hfeed hreturn

/-- The beginning of content is content. -/
theorem IsContent.upTo (content : IsContent text start stop) (hstart : start ≤ offset)
    (hstop : offset ≤ stop) : IsContent text start offset where
  start_le_stop := hstart
  stop_le_length := Nat.le_trans hstop content.stop_le_length
  plain i hi hlt := content.plain i hi (Nat.lt_of_lt_of_le hlt hstop)

theorem IsTerminator.next_unique {next' : Nat} (terminator : IsTerminator text stop next)
    (terminator' : IsTerminator text stop next') : next = next' := by
  cases terminator with
  | lineFeed feed =>
      cases terminator' with
      | lineFeed => rfl
      | carriageReturn ret | both ret => simp [feed] at ret
  | carriageReturn ret alone =>
      cases terminator' with
      | lineFeed feed => simp [ret] at feed
      | carriageReturn => rfl
      | both ret' feed => exact absurd feed alone
  | both ret feed =>
      cases terminator' with
      | lineFeed feed' => simp [ret] at feed'
      | carriageReturn ret' alone => exact absurd feed alone
      | both => rfl

/-- Content and a terminator behind it make the first line. -/
theorem LinesFrom.eq_cons (divided : LinesFrom text start lines)
    (content : IsContent text start stop) (terminator : IsTerminator text stop next) :
    ∃ rest, lines = ⟨start, stop⟩ :: rest ∧ LinesFrom text next rest := by
  have hordered := content.start_le_stop
  cases divided with
  | last content' =>
      -- The last line would reach over the terminator.
      have hend := content'.le_of_isTerminator terminator hordered
      have hbehind : text[stop]? = none := List.getElem?_eq_none_iff.mpr hend
      rcases terminator.ends with hends | hends <;> simp [hbehind] at hends
  | @next _ stop' next' rest content' terminator' hrest =>
      have hle := content'.le_of_isTerminator terminator hordered
      have hge := content.le_of_isTerminator terminator' content'.start_le_stop
      obtain rfl : stop = stop' := Nat.le_antisymm hge hle
      obtain rfl := terminator.next_unique terminator'
      exact ⟨rest, rfl, hrest⟩

/-- The first line goes at least as far as any content from its start on. -/
theorem LinesFrom.exists_first (divided : LinesFrom text start lines)
    (content : IsContent text start offset) :
    ∃ stop rest, lines = ⟨start, stop⟩ :: rest ∧ offset ≤ stop := by
  cases divided with
  | last content' => exact ⟨text.length, [], rfl, content.stop_le_length⟩
  | next content' terminator rest =>
      exact ⟨_, _, rfl, content.le_of_isTerminator terminator content'.start_le_stop⟩

/-- A line that an offset is on has the same number and start in a text that agrees up to behind the
offset, and the offset is on it there as well. -/
theorem LinesFrom.exists_line_of_agree {lines' : List LineExtent} {number : Nat}
    {line : LineExtent} (agree : AgreeBefore text other limit)
    (divided : LinesFrom text start lines)
    (divided' : LinesFrom other start lines') (found : lines[number]? = some line)
    (hstart : line.start ≤ offset) (hstop : offset ≤ line.stop) (before : offset < limit) :
    ∃ line', lines'[number]? = some line' ∧ line'.start = line.start ∧ offset ≤ line'.stop := by
  have hcontent := (divided.content_of_mem (List.mem_of_getElem? found)).1
  have hoffset := agree.isContent (hcontent.upTo hstart hstop) before
  -- The lines before that of the offset are the same in both texts, with their terminators.
  induction divided generalizing lines' number with
  | @last start content =>
      cases number with
      | zero =>
          cases found
          obtain ⟨stop', rest', rfl, hreached⟩ := divided'.exists_first hoffset
          exact ⟨⟨start, stop'⟩, rfl, rfl, hreached⟩
      | succ number => cases found
  | @next start stop next lines content terminator rest ih =>
      cases number with
      | zero =>
          cases found
          obtain ⟨stop', rest', rfl, hreached⟩ := divided'.exists_first hoffset
          exact ⟨⟨start, stop'⟩, rfl, rfl, hreached⟩
      | succ number =>
          have hlater : lines[number]? = some line := found
          have hnext : next ≤ line.start :=
            (rest.content_of_mem (List.mem_of_getElem? hlater)).2
          have hapart := terminator.lt
          obtain ⟨rest', rfl, hrest'⟩ := divided'.eq_cons
            (agree.isContent content (by omega)) (agree.isTerminator terminator (by omega))
          obtain ⟨line', hfound', hline'⟩ := ih hrest' hlater
          exact ⟨line', hfound', hline'⟩

namespace LineTable

variable {encoding : ColumnEncoding} {line : LineExtent} {p : Position}

/-! ## Exact positions -/

/-- A position is exact if it is the one that its offset is told as: it points to no place inside a
character, behind a line or behind the text. -/
def IsExact (t : LineTable) (p : Position) : Prop := t.position (t.offset p) = p

instance (t : LineTable) (p : Position) : Decidable (t.IsExact p) :=
  inferInstanceAs (Decidable (_ = _))

/-- An offset is on one line at most. -/
theorem line_unique {number number' : Nat} {line' : LineExtent}
    (found : (ofText text encoding).lines[number]? = some line)
    (found' : (ofText text encoding).lines[number']? = some line')
    (on : line.start ≤ offset ∧ offset ≤ line.stop)
    (on' : line'.start ≤ offset ∧ offset ≤ line'.stop) : number = number' := by
  rcases Nat.lt_trichotomy number number' with hlt | heq | hgt
  · have hapart := stop_lt_start found found' hlt
    omega
  · exact heq
  · have hapart := stop_lt_start found' found hgt
    omega

/-- The column of an exact position is the units of the characters before it on its line. -/
theorem IsExact.toNat_character (exact : (ofText text encoding).IsExact p)
    (found : (ofText text encoding).lines[p.line.toNat]? = some line) :
    p.character.toNat = encoding.lengthOf
      (((ofText text encoding).contentUpTo line line.stop).take
        ((ofText text encoding).offset p - line.start)) := by
  have hon := offset_mem_line found
  have hwithin := offset_le_length text encoding p
  have hcontent := content_of_getElem? found
  obtain ⟨number, line', falls⟩ := exists_fallsOn encoding hwithin
  have hstop' := falls.le_stop.resolve_right fun splits =>
    not_splits_offset text encoding p splits.2
  obtain rfl := line_unique found falls.found hon ⟨falls.start_le, hstop'⟩
  obtain rfl : line = line' := Option.some.inj (found.symm.trans falls.found)
  -- The units are at most the column that was read, and so they are not cut off when told.
  have hunits : encoding.lengthOf
      (((ofText text encoding).contentUpTo line line.stop).take
        ((ofText text encoding).offset p - line.start)) ≤ p.character.toNat := by
    rw [← le_charactersWithin_iff]
    · have hoffset := offset_of_line found
      omega
    · rw [length_contentUpTo hcontent]
      omega
  have htold : p.character.toNat = (UInt32.ofNat (encoding.lengthOf
      (((ofText text encoding).contentUpTo line line.stop).take
        ((ofText text encoding).offset p - line.start)))).toNat :=
    congrArg (fun q : Position => q.character.toNat) (exact.symm.trans (falls.position_eq hwithin))
  rw [htold]
  exact UInt32.toNat_ofNat_of_lt' (Nat.lt_of_le_of_lt hunits p.character.toNat_lt)

/-- An exact position is on a line. -/
theorem IsExact.exists_line (exact : (ofText text encoding).IsExact p) :
    ∃ line, (ofText text encoding).lines[p.line.toNat]? = some line := by
  have hwithin := offset_le_length text encoding p
  obtain ⟨number, line, falls⟩ := exists_fallsOn encoding hwithin
  have hline : p.line.toNat = (UInt32.ofNat number).toNat :=
    congrArg (fun q : Position => q.line.toNat) (exact.symm.trans (falls.position_eq hwithin))
  have hle : p.line.toNat ≤ number := by
    rw [hline, UInt32.toNat_ofNat']
    exact Nat.mod_le _ _
  have hcount := (List.getElem?_eq_some_iff.mp falls.found).1
  exact ⟨_, List.getElem?_eq_getElem (Nat.lt_of_le_of_lt hle hcount)⟩

/-- An exact position has the same offset in all texts that agree up to behind it. -/
theorem IsExact.offset_eq (exact : (ofText text encoding).IsExact p)
    (agree : AgreeBefore text other limit) (before : (ofText text encoding).offset p < limit) :
    (ofText other encoding).offset p = (ofText text encoding).offset p := by
  obtain ⟨line, hfound⟩ := exact.exists_line
  obtain ⟨hstart, hstop⟩ := offset_mem_line hfound
  obtain ⟨line', hfound', hsame, hstop'⟩ := (linesFrom_ofText text encoding).exists_line_of_agree
    agree (linesFrom_ofText other encoding) hfound hstart hstop before
  have hcharacters : ((ofText other encoding).contentUpTo line' line'.stop).take
      ((ofText text encoding).offset p - line'.start) =
        ((ofText text encoding).contentUpTo line line.stop).take
          ((ofText text encoding).offset p - line.start) := by
    rw [← contentUpTo_eq_take, ← contentUpTo_eq_take, contentUpTo, contentUpTo,
      Nat.min_eq_left hstop, Nat.min_eq_left hstop', hsame]
    exact (agree.extract_eq line.start (Nat.le_of_lt before)).symm
  rw [offset_of_line hfound', exact.toNat_character hfound, ← hcharacters,
    charactersWithin_lengthOf_take, length_contentUpTo (content_of_getElem? hfound')]
  omega

end LineTable

end CodeInsight

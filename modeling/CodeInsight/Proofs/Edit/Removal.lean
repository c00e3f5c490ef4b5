/-
# What a batch removes

Every character of a text under edit either stood in the old text, at some offset, or
was brought in by the batch under way. To follow where they come from, the changes of
a batch are applied to a text whose characters carry this along.

Changes are held to the order of their starts only. The end of a span is read in the
old text as well, but the text that it is applied to may have been changed in front of
that end. So a change removes just the text under its span if the span ends before
everything that was changed earlier in the batch. If it does not, what it removes may
have been brought in by the same batch, or may be old text that no span covers.
-/

import CodeInsight.Proofs.Edit.Simultaneous
import Mathlib.Algebra.Order.Ring.Nat
import Mathlib.Order.Interval.Finset.Nat

namespace CodeInsight

/-- A character with its offset in the old text. One that was brought in since has none. -/
structure Marked where
  char : Char
  origin : Option Nat
  deriving DecidableEq

namespace Marked

/-- The characters of the old text. -/
def ofText (text : List Char) : List Marked := text.zipIdx.map fun (c, k) => ⟨c, some k⟩

/-- Characters that are brought in. -/
def fresh (text : List Char) : List Marked := text.map fun c => ⟨c, none⟩

theorem map_char_ofText (text : List Char) : (ofText text).map char = text := by
  simp [ofText, Function.comp_def]

theorem map_char_fresh (text : List Char) : (fresh text).map char = text := by
  simp [fresh, Function.comp_def]

@[simp] theorem length_ofText (text : List Char) : (ofText text).length = text.length := by
  simp [ofText]

@[simp] theorem length_fresh (text : List Char) : (fresh text).length = text.length :=
  List.length_map _

/-- A character of a stretch of the old text has its offset in the stretch. -/
theorem exists_origin_of_mem_extract {text : List Char} {start stop : Nat} {c : Marked}
    (hc : c ∈ (ofText text).extract start stop) :
    ∃ k, c.origin = some k ∧ start ≤ k ∧ k < stop := by
  rw [List.extract_eq_take_drop] at hc
  obtain ⟨i, hi, rfl⟩ := List.mem_iff_getElem.mp hc
  rw [List.length_take, List.length_drop] at hi
  refine ⟨start + i, ?_, Nat.le_add_right _ _, by omega⟩
  simp [ofText]

end Marked

namespace Splice

/-- What a splice takes out of a text of marked characters. -/
def taken (s : Splice) (text : List Marked) : List Marked := text.extract s.start s.stop

/-- A text of marked characters after a splice. -/
def applyMarked (s : Splice) (text : List Marked) : List Marked :=
  text.take s.start ++ Marked.fresh s.inserted ++ text.drop (max s.start s.stop)

/-- Marks make no difference to what a splice does to the text. -/
theorem map_char_applyMarked (s : Splice) (text : List Marked) :
    (s.applyMarked text).map Marked.char = s.apply (text.map Marked.char) := by
  simp [applyMarked, apply, List.map_take, List.map_drop, Marked.map_char_fresh]

/-- Every character is kept, taken out or brought in. -/
theorem length_applyMarked (s : Splice) (text : List Marked) (fits : s.Fits text.length) :
    (s.applyMarked text).length + (s.taken text).length = text.length + s.inserted.length := by
  obtain ⟨hstart, hstop⟩ := fits
  simp only [applyMarked, taken, List.extract_eq_take_drop, List.length_append, List.length_take,
    List.length_drop, Marked.length_fresh]
  omega

/-- The offsets that some splice covers. -/
def covered : List Splice → Finset Nat
  | [] => ∅
  | s :: rest => Finset.Ico s.start s.stop ∪ covered rest

theorem mem_covered {splices : List Splice} {k : Nat} :
    k ∈ covered splices ↔ ∃ s ∈ splices, s.start ≤ k ∧ k < s.stop := by
  induction splices with
  | nil => simp [covered]
  | cons s rest ih => simp [covered, ih]

/-- When splices are listed backwards, all lie before the start of the first. -/
theorem stop_le_start_of_isChain {s t : Splice} {rest : List Splice}
    (backwards : (s :: rest).IsChain fun previous next => next.EndsBefore previous)
    (ht : t ∈ rest) : t.stop ≤ s.start := by
  induction rest generalizing s with
  | nil => cases ht
  | cons next rest ih =>
      obtain ⟨hnext, hrest⟩ := List.isChain_cons_cons.mp backwards
      rcases List.mem_cons.mp ht with rfl | ht
      · exact Nat.le_trans (Nat.le_max_right _ _) hnext
      · exact Nat.le_trans (ih hrest ht) (Nat.le_trans (Nat.le_max_left _ _) hnext)

/-- Splices that are listed backwards have no offset in common. -/
theorem card_covered {splices : List Splice}
    (backwards : splices.IsChain fun previous next => next.EndsBefore previous) :
    (covered splices).card = (splices.map fun s => s.stop - s.start).sum := by
  induction splices with
  | nil => rfl
  | cons s rest ih =>
      have hdisjoint : Disjoint (Finset.Ico s.start s.stop) (covered rest) := by
        rw [Finset.disjoint_left]
        intro k hk hrest
        obtain ⟨t, ht, -, hlt⟩ := mem_covered.mp hrest
        have hstop := stop_le_start_of_isChain backwards ht
        have hstart := (Finset.mem_Ico.mp hk).1
        omega
      rw [covered, Finset.card_union_of_disjoint hdisjoint, Nat.card_Ico, ih backwards.tail,
        List.map_cons, List.sum_cons]

end Splice

/-- One removal in the course of a batch. -/
structure Removal where
  /-- The change, as a splice of the old text. -/
  change : Splice
  /-- The characters that it takes out. -/
  taken : List Marked
  deriving DecidableEq

namespace Removal

/-- Only characters of the old text are taken out, and only such as the change covers. -/
def IsWithinSpan (r : Removal) : Prop :=
  ∀ c ∈ r.taken, ∃ k, c.origin = some k ∧ r.change.start ≤ k ∧ k < r.change.stop

/-- All characters of a text that the change covers are taken out, and no others. -/
def IsExact (r : Removal) (text : List Char) : Prop :=
  r.taken = (Marked.ofText text).extract r.change.start r.change.stop

theorem IsExact.isWithinSpan {r : Removal} {text : List Char} (covered : r.IsExact text) :
    r.IsWithinSpan := by
  intro c hc
  rw [covered] at hc
  exact Marked.exists_origin_of_mem_extract hc

end Removal

namespace Buffer

/-- Applies changes to a text of marked characters, and records what they remove. -/
def traceChanges (table : LineTable) (text : List Marked) :
    List Change → List Marked × List Removal
  | [] => (text, [])
  | .whole replacement :: rest => traceChanges table (Marked.fresh replacement) rest
  | .replace span inserted :: rest =>
    let splice := Splice.resolve table text.length span inserted
    let (left, removals) := traceChanges table (splice.applyMarked text) rest
    (left,
      ⟨⟨table.offset span.start, table.offset span.stop, inserted⟩, splice.taken text⟩ :: removals)

/-- The text of marked characters that a batch leaves, and what its changes remove, in order. -/
def trace (b : Buffer) (batch : Batch) : List Marked × List Removal :=
  traceChanges b.lineTable (Marked.ofText b.text) batch.changes

/-- The removals of a batch account for the text that it leaves. -/
structure AccountsFor (b : Buffer) (batch : Batch) (text : List Char) : Prop where
  left : (b.trace batch).1.map Marked.char = text
  /-- There is one removal for each change, although it may be empty. -/
  changes : (b.trace batch).2.map Removal.change = batch.splices b.lineTable
  /-- Nothing is missing but what was removed. -/
  balance : text.length + ((b.trace batch).2.map fun r => r.taken.length).sum =
    b.text.length + ((batch.splices b.lineTable).map fun s => s.inserted.length).sum
  /-- A change that ends before everything that was changed earlier removes what it covers. -/
  within : ∀ earlier r later, (b.trace batch).2 = earlier ++ r :: later →
    (∀ p ∈ earlier, r.change.stop ≤ p.change.start) → r.IsExact b.text ∧ r.IsWithinSpan
  /-- If this holds of all changes, the length is off by what they cover and what they bring in. -/
  length : ((batch.splices b.lineTable).IsChain fun previous next => next.EndsBefore previous) →
    text.length + (Splice.covered (batch.splices b.lineTable)).card =
      b.text.length + ((batch.splices b.lineTable).map fun s => s.inserted.length).sum

/-! ## The text of marked characters -/

section

variable {table : LineTable} {bound : Option Nat} {text : List Marked} {changes : List Change}

theorem traceChanges_replace (span : Span) (inserted : List Char) :
    traceChanges table text (.replace span inserted :: changes) =
      let splice := Splice.resolve table text.length span inserted
      ((traceChanges table (splice.applyMarked text) changes).1,
        ⟨⟨table.offset span.start, table.offset span.stop, inserted⟩, splice.taken text⟩ ::
          (traceChanges table (splice.applyMarked text) changes).2) :=
  rfl

/-- Marks make no difference to the text that is reached. -/
theorem map_char_traceChanges {reached : List Char}
    (accepted : applyChanges table bound (text.map Marked.char) changes = (reached, none)) :
    (traceChanges table text changes).1.map Marked.char = reached := by
  induction changes generalizing bound text with
  | nil =>
      cases accepted
      rfl
  | cons change changes ih =>
      cases change with
      | whole replacement =>
          rw [applyChanges, ← Marked.map_char_fresh replacement] at accepted
          exact ih accepted
      | replace span inserted =>
          rw [applyChanges] at accepted
          split at accepted
          · cases accepted
          · rw [List.length_map, ← Splice.map_char_applyMarked] at accepted
            exact ih accepted

theorem map_change_traceChanges (text : List Marked)
    (spans : ∀ c ∈ changes, c.isWhole = false) :
    (traceChanges table text changes).2.map Removal.change =
      changes.filterMap (Change.splice? table) := by
  induction changes generalizing text with
  | nil => rfl
  | cons change changes ih =>
      obtain ⟨hfirst, hrest⟩ := List.forall_mem_cons.mp spans
      cases change with
      | whole replacement => cases hfirst
      | replace span inserted => exact congrArg (List.cons _) (ih _ hrest)

theorem length_traceChanges (spans : ∀ c ∈ changes, c.isWhole = false) :
    (traceChanges table text changes).1.length +
        ((traceChanges table text changes).2.map fun r => r.taken.length).sum =
      text.length +
        ((changes.filterMap (Change.splice? table)).map fun s => s.inserted.length).sum := by
  induction changes generalizing text with
  | nil => rfl
  | cons change changes ih =>
      obtain ⟨hfirst, hrest⟩ := List.forall_mem_cons.mp spans
      cases change with
      | whole replacement => cases hfirst
      | replace span inserted =>
          let s := Splice.resolve table text.length span inserted
          have hstep : (s.applyMarked text).length + (s.taken text).length =
              text.length + inserted.length :=
            s.length_applyMarked text (Splice.fits_resolve _ _ _ _)
          have hlater := @ih (s.applyMarked text) hrest
          have hsplices : (Change.replace span inserted :: changes).filterMap
              (Change.splice? table) =
                ⟨table.offset span.start, table.offset span.stop, inserted⟩ ::
                  changes.filterMap (Change.splice? table) := rfl
          rw [traceChanges_replace, hsplices]
          simp only [List.map_cons, List.sum_cons]
          show (traceChanges table (s.applyMarked text) changes).1.length +
            ((s.taken text).length + ((traceChanges table (s.applyMarked text) changes).2.map
              fun r => r.taken.length).sum) = _ + (inserted.length + _)
          omega

/-! ## What is untouched -/

/-- Within a prefix in which the text is still the old one, a span covers the same characters. -/
theorem taken_resolve_of_take_eq {old : List Marked} {limit : Nat} {span : Span}
    {inserted : List Char} (untouched : text.take limit = old.take limit)
    (fits : limit ≤ text.length) (within : table.offset span.stop ≤ limit) :
    (Splice.resolve table text.length span inserted).taken text =
      old.extract (table.offset span.start) (table.offset span.stop) := by
  have hextract (start : Nat) : text.extract start (table.offset span.stop) =
      old.extract start (table.offset span.stop) := by
    rw [List.extract_eq_take_drop, List.extract_eq_take_drop, ← List.drop_take, ← List.drop_take,
      ← Nat.min_eq_left within, ← List.take_take, ← List.take_take, untouched]
  rw [Splice.resolve, Splice.taken, Nat.min_eq_left (Nat.le_trans within fits), hextract]
  rcases Nat.le_total (table.offset span.start) text.length with hstart | hstart
  · rw [Nat.min_eq_left hstart]
  · -- The span is inverted, and covers nothing from wherever it starts.
    have hstop : table.offset span.stop ≤ text.length := Nat.le_trans within fits
    rw [Nat.min_eq_right hstart, List.extract_eq_take_drop, List.extract_eq_take_drop,
      Nat.sub_eq_zero_of_le hstop, Nat.sub_eq_zero_of_le (Nat.le_trans hstop hstart),
      List.take_zero, List.take_zero]

/-- A splice leaves a prefix untouched up to its start. -/
theorem take_applyMarked {s : Splice} {limit : Nat} (within : limit ≤ s.start)
    (fits : s.start ≤ text.length) : (s.applyMarked text).take limit = text.take limit := by
  have hlength : limit ≤ (text.take s.start).length := by
    rw [List.length_take]
    omega
  rw [Splice.applyMarked, List.append_assoc, List.take_append_of_le_length hlength,
    List.take_take, Nat.min_eq_left within]

/-- A change is exact if its span ends in a prefix of the text that was untouched before, and at or
before the start of all changes since. -/
theorem taken_eq_of_traceChanges {old : List Marked} {limit : Nat}
    (spans : ∀ c ∈ changes, c.isWhole = false) (untouched : text.take limit = old.take limit)
    (fits : limit ≤ text.length) {earlier later : List Removal} {r : Removal}
    (removals : (traceChanges table text changes).2 = earlier ++ r :: later)
    (within : r.change.stop ≤ limit) (before : ∀ p ∈ earlier, r.change.stop ≤ p.change.start) :
    r.taken = old.extract r.change.start r.change.stop := by
  -- What is left untouched shrinks to the start of each change, behind the end of `r`.
  induction changes generalizing text limit earlier with
  | nil => cases (List.append_eq_nil_iff.mp removals.symm).2
  | cons change changes ih =>
      obtain ⟨hfirst, hrest⟩ := List.forall_mem_cons.mp spans
      cases change with
      | whole replacement => cases hfirst
      | replace span inserted =>
          cases earlier with
          | nil =>
              obtain ⟨rfl, -⟩ := List.cons.inj removals
              exact taken_resolve_of_take_eq untouched fits within
          | cons first earlier =>
              obtain ⟨rfl, hremovals⟩ := List.cons.inj removals
              obtain ⟨hstop, hbefore⟩ := List.forall_mem_cons.mp before
              let s := Splice.resolve table text.length span inserted
              have hstart : s.start ≤ text.length := Nat.min_le_right _ _
              have hwithin : r.change.stop ≤ s.start :=
                Nat.le_min.mpr ⟨hstop, Nat.le_trans within fits⟩
              have huntouched : (s.applyMarked text).take (min limit s.start) =
                  old.take (min limit s.start) := by
                rw [take_applyMarked (Nat.min_le_right _ _) hstart, Nat.min_comm,
                  ← List.take_take, untouched, List.take_take]
              have hfits : min limit s.start ≤ (s.applyMarked text).length := by
                rw [Splice.applyMarked, List.length_append, List.length_append, List.length_take]
                omega
              exact ih hrest huntouched hfits hremovals (Nat.le_min.mpr ⟨within, hwithin⟩) hbefore

end

/-! ## Whole batches -/

section

variable {b after : Buffer} {caller : ThreadId} {batch : Batch} {version : Version}

/-- The offsets of a splice that stands for a change of a batch lie in the text. -/
theorem stop_le_length_of_mem_splices {s : Splice} (hs : s ∈ batch.splices b.lineTable) :
    s.stop ≤ b.text.length := by
  obtain ⟨c, -, hc⟩ := List.mem_filterMap.mp hs
  cases c with
  | whole replacement => cases hc
  | replace span inserted =>
      cases hc
      exact LineTable.offset_le_length _ _ _

theorem isExact_of_trace (spans : ∀ c ∈ batch.changes, c.isWhole = false)
    {earlier later : List Removal} {r : Removal}
    (removals : (b.trace batch).2 = earlier ++ r :: later)
    (before : ∀ p ∈ earlier, r.change.stop ≤ p.change.start) : r.IsExact b.text := by
  have hr : r.change ∈ batch.splices b.lineTable := by
    rw [Batch.splices, ← map_change_traceChanges (Marked.ofText b.text) spans]
    exact List.mem_map_of_mem (removals ▸ List.mem_append_right _ List.mem_cons_self)
  have hwithin := stop_le_length_of_mem_splices hr
  exact taken_eq_of_traceChanges spans rfl (Nat.le_of_eq (Marked.length_ofText _).symm) removals
    hwithin before

/-- An exact removal is as long as the span of its change. -/
theorem length_taken_of_isExact {r : Removal} (covered : r.IsExact b.text)
    (hr : r.change ∈ batch.splices b.lineTable) :
    r.taken.length = r.change.stop - r.change.start := by
  have hstop := stop_le_length_of_mem_splices hr
  rw [covered, List.extract_eq_take_drop, List.length_take, List.length_drop, Marked.length_ofText]
  omega

/-- When changes are listed backwards, each at or before the start of the last, all are exact. -/
theorem isExact_of_backwards (spans : ∀ c ∈ batch.changes, c.isWhole = false)
    (backwards : (batch.splices b.lineTable).IsChain
      fun previous next => next.EndsBefore previous)
    {r : Removal} (hr : r ∈ (b.trace batch).2) : r.IsExact b.text := by
  obtain ⟨earlier, later, hremovals⟩ := List.append_of_mem hr
  refine isExact_of_trace spans hremovals fun p hp => ?_
  obtain ⟨first, between, rfl⟩ := List.append_of_mem hp
  -- From `p` on, the changes are a chain of their own.
  have hchanges : batch.splices b.lineTable =
      first.map Removal.change ++
        p.change :: (between ++ r :: later).map Removal.change := by
    rw [Batch.splices, ← map_change_traceChanges (Marked.ofText b.text) spans]
    show (b.trace batch).2.map Removal.change = _
    rw [hremovals, List.append_assoc, List.map_append, List.cons_append, List.map_cons]
  rw [hchanges] at backwards
  exact Splice.stop_le_start_of_isChain backwards.right_of_append
    (List.mem_map_of_mem (List.mem_append_right _ List.mem_cons_self))

/-- **What an applied batch removes.** A change that ends before everything that was changed earlier
in its batch removes the text under its span, all of it and nothing else. If that holds of all
changes, the text that is left has the length of the old one, less what some span covers, together
with what is brought in. -/
theorem applied_batch_removals (spans : batch.hasWhole = false)
    (applied : b.apply caller batch = (after, .ok (.applied version))) :
    b.AccountsFor batch after.text := by
  have hspans : ∀ c ∈ batch.changes, c.isWhole = false := by
    simpa [Batch.hasWhole] using spans
  have hleft : (b.trace batch).1.map Marked.char = after.text := by
    cases applying_of_apply applied with
    | applied own admitted changes =>
        rw [← Marked.map_char_ofText b.text] at changes
        exact map_char_traceChanges changes
  have hchanges : (b.trace batch).2.map Removal.change = batch.splices b.lineTable :=
    map_change_traceChanges _ hspans
  have hbalance : after.text.length + ((b.trace batch).2.map fun r => r.taken.length).sum =
      b.text.length + ((batch.splices b.lineTable).map fun s => s.inserted.length).sum := by
    rw [← hleft, List.length_map, ← Marked.length_ofText b.text]
    exact length_traceChanges hspans
  refine ⟨hleft, hchanges, hbalance, ?_, ?_⟩
  · intro earlier r later hremovals hbefore
    have hexact := isExact_of_trace hspans hremovals hbefore
    exact ⟨hexact, hexact.isWithinSpan⟩
  · intro hbackwards
    have hlengths : (b.trace batch).2.map (fun r => r.taken.length) =
        (batch.splices b.lineTable).map fun s => s.stop - s.start := by
      rw [← hchanges, List.map_map]
      apply List.map_congr_left
      intro r hr
      exact length_taken_of_isExact (isExact_of_backwards hspans hbackwards hr)
        (hchanges ▸ List.mem_map_of_mem hr)
    rw [Splice.card_covered hbackwards, ← hlengths, hbalance]

end

/-- A text of three letters. -/
def letters : Buffer := ⟨['a', 'b', 'c'], 1, ⟨0⟩, .utf16⟩

/-- A replacement, and an insertion at its start. -/
def insertLast : Batch := ⟨1, 2, [.replace ⟨⟨0, 1⟩, ⟨0, 2⟩⟩ ['X'], .insert ⟨0, 1⟩ ['Y']]⟩

theorem applied_batch_removals_at_equal_starts :
    insertLast.hasWhole = false ∧
      letters.apply letters.owner insertLast =
        (⟨['a', 'Y', 'X', 'c'], 2, ⟨0⟩, .utf16⟩, .ok (.applied 2)) ∧
      (letters.trace insertLast).2 =
        [⟨⟨1, 2, ['X']⟩, [⟨'b', some 1⟩]⟩, ⟨⟨1, 1, ['Y']⟩, []⟩] ∧
      ((insertLast.splices letters.lineTable).IsChain
        fun previous next => next.EndsBefore previous) ∧
      letters.AccountsFor insertLast ['a', 'Y', 'X', 'c'] := by
  have hspans : insertLast.hasWhole = false := rfl
  have happlied : letters.apply letters.owner insertLast =
      (⟨['a', 'Y', 'X', 'c'], 2, ⟨0⟩, .utf16⟩, .ok (.applied 2)) := rfl
  have hremovals : (letters.trace insertLast).2 =
      [⟨⟨1, 2, ['X']⟩, [⟨'b', some 1⟩]⟩, ⟨⟨1, 1, ['Y']⟩, []⟩] := rfl
  have hbackwards : (insertLast.splices letters.lineTable).IsChain
      fun previous next => next.EndsBefore previous := by decide
  exact ⟨hspans, happlied, hremovals, hbackwards, applied_batch_removals hspans happlied⟩

/-- An insertion, and a removal at its start. -/
def insertFirst : Batch := ⟨1, 2, [.insert ⟨0, 1⟩ ['X'], .delete ⟨⟨0, 1⟩, ⟨0, 2⟩⟩]⟩

/-- Two spans one of which covers the other. -/
def overlapping : Batch := ⟨1, 2, [.delete ⟨⟨0, 1⟩, ⟨0, 2⟩⟩, .delete ⟨⟨0, 0⟩, ⟨0, 2⟩⟩]⟩

/-- Changes that do not end before everything changed earlier are applied all the same. One takes
out what was just brought in and leaves the character under its span. The other takes a character
that no span covers. -/
theorem removals_beyond_spans :
    (insertFirst.hasWhole = false ∧
      letters.apply letters.owner insertFirst =
        (⟨['a', 'b', 'c'], 2, ⟨0⟩, .utf16⟩, .ok (.applied 2)) ∧
      (letters.trace insertFirst).2 =
        [⟨⟨1, 1, ['X']⟩, []⟩, ⟨⟨1, 2, []⟩, [⟨'X', none⟩]⟩] ∧
      ¬ ∀ r ∈ (letters.trace insertFirst).2, r.IsWithinSpan) ∧
    (overlapping.hasWhole = false ∧
      letters.apply letters.owner overlapping = (⟨[], 2, ⟨0⟩, .utf16⟩, .ok (.applied 2)) ∧
      (overlapping.splices letters.lineTable).map Splice.inserted = [[], []] ∧
      letters.text.length - (Splice.covered (overlapping.splices letters.lineTable)).card = 1) := by
  have happlied : letters.apply letters.owner insertFirst =
      (⟨['a', 'b', 'c'], 2, ⟨0⟩, .utf16⟩, .ok (.applied 2)) := rfl
  have hremovals : (letters.trace insertFirst).2 =
      [⟨⟨1, 1, ['X']⟩, []⟩, ⟨⟨1, 2, []⟩, [⟨'X', none⟩]⟩] := rfl
  have hoverlapping : letters.apply letters.owner overlapping =
      (⟨[], 2, ⟨0⟩, .utf16⟩, .ok (.applied 2)) := rfl
  have hcovered :
      letters.text.length - (Splice.covered (overlapping.splices letters.lineTable)).card = 1 := rfl
  refine ⟨⟨rfl, happlied, hremovals, ?_⟩, rfl, hoverlapping, rfl, hcovered⟩
  intro within
  rw [hremovals] at within
  obtain ⟨k, hk, -⟩ := within ⟨⟨1, 2, []⟩, [⟨'X', none⟩]⟩ (by simp) ⟨'X', none⟩ (by simp)
  cases hk

end Buffer

end CodeInsight

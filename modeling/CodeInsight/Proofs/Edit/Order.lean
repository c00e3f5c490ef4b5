/-
# The order of a batch

The spans of a batch have to be listed from the end of the text backwards. A batch that
lists them so is never refused for its order. One that does not is refused at the first
span that starts behind the least start before it, and what the changes before it have
left of the text stays.

The check has a gap. It compares starts as they fall into the text that is left, and not
as they are in the text before the batch. Where the changes before have left nothing
behind their least start, no start falls behind it, and the batch goes through.
-/

import CodeInsight.Proofs.Edit.Simultaneous

namespace CodeInsight

/-- A splice leaves the text up to its start. -/
theorem Splice.start_le_length_apply (s : Splice) {text : List Char}
    (fits : s.Fits text.length) : s.start ≤ (s.apply text).length := by
  have hstart := fits.1
  rw [apply, List.length_append, List.length_append, List.length_take]
  omega

/-- Where the spans of changes start in the text of a table, as listed. -/
def Change.starts (table : LineTable) (changes : List Change) : List Nat :=
  (changes.filterMap (Change.splice? table)).map (·.start)

@[simp]
theorem Change.starts_cons_replace (table : LineTable) (span : Span) (inserted : List Char)
    (changes : List Change) :
    starts table (.replace span inserted :: changes) =
      table.offset span.start :: starts table changes := rfl

@[simp]
theorem Change.starts_append (table : LineTable) (changes more : List Change) :
    starts table (changes ++ more) = starts table changes ++ starts table more := by
  rw [starts, List.filterMap_append, List.map_append, starts, starts]

/-- Spans are listed backwards if none starts behind the least start before it. -/
theorem Change.starts_pairwise_iff {table : LineTable} {changes : List Change}
    (spans : ∀ c ∈ changes, c.isWhole = false) :
    (starts table changes).Pairwise (· ≥ ·) ↔
      ∀ earlier span inserted later, changes = earlier ++ .replace span inserted :: later →
        ∀ least, (starts table earlier).min? = some least →
          table.offset span.start ≤ least := by
  constructor
  · rintro ordered earlier span inserted later rfl least hleast
    rw [starts_append, starts_cons_replace] at ordered
    exact (List.pairwise_append.mp ordered).2.2 least (List.min?_mem hleast) _ List.mem_cons_self
  · intro backwards
    induction changes using List.reverseRecOn with
    | nil => exact .nil
    | append_singleton changes change ih =>
        obtain ⟨hspans, hspan⟩ := List.forall_mem_append.mp spans
        have hearlier := ih hspans fun earlier span inserted later hchanges =>
          backwards earlier span inserted (later ++ [change]) (by simp [hchanges])
        cases change with
        | whole => cases hspan _ (List.mem_singleton_self _)
        | replace span inserted =>
            rw [starts_append]
            refine List.pairwise_append.mpr ⟨hearlier, List.pairwise_singleton _ _, ?_⟩
            intro s hs last hlast
            cases List.mem_singleton.mp hlast
            obtain ⟨least, hleast⟩ :=
              Option.isSome_iff_exists.mp (List.isSome_min?_of_mem hs)
            have hle := (List.min?_eq_some_iff.mp hleast).2 s hs
            exact Nat.le_trans (backwards changes span inserted [] rfl least hleast) hle

namespace Buffer

variable {table : LineTable} {bound : Option Nat} {text left : List Char} {span : Span}
  {inserted : List Char} {changes earlier : List Change} {previous start : Nat}

/-! ## Single changes -/

/-- The text reaches as far as the start of the last change, and before the first change as far as
any start. -/
def Reaches (table : LineTable) (text : List Char) : Option Nat → Prop
  | none => ∀ p, table.offset p ≤ text.length
  | some last => last ≤ text.length

/-- The least start up to and with one more. -/
def least (bound : Option Nat) (start : Nat) : Nat := bound.elim start (min · start)

/-- A change starts behind the least start where text is left, or it does not. -/
theorem inOrder_or_behind (bound : Option Nat) (start length : Nat) :
    (∀ last ∈ bound, start ≤ last ∨ length ≤ last) ∨
      ∃ last, bound = some last ∧ last < start ∧ last < length := by
  by_cases hbehind : ∃ last, bound = some last ∧ last < start ∧ last < length
  · exact .inr hbehind
  · refine .inl fun last hlast => ?_
    have hnot := not_and.mp (not_exists.mp hbehind last) hlast
    omega

theorem applyChanges_cons_of_lt {last : Nat} (behind : last < table.offset span.start)
    (remains : last < text.length) (rest : List Change) :
    applyChanges table (some last) text (.replace span inserted :: rest) =
      (text, some (.outOfOrder last (min (table.offset span.start) text.length))) := by
  have hfilter : (some last).filter (· < min (table.offset span.start) text.length) = some last :=
    Option.filter_eq_some_iff.mpr ⟨rfl, decide_eq_true (Nat.lt_min.mpr ⟨behind, remains⟩)⟩
  rw [applyChanges, Splice.resolve]
  simp only [hfilter]

/-- A change that starts at the least start or before it, or where nothing is left behind that, is
applied. The least start up to it bounds the next one. -/
theorem applyChanges_cons_of_le (reaches : Reaches table text bound) (span : Span)
    (inserted : List Char)
    (inOrder : ∀ last ∈ bound, table.offset span.start ≤ last ∨ text.length ≤ last) :
    ∃ reached, Reaches table reached (some (least bound (table.offset span.start))) ∧
      ∀ rest, applyChanges table bound text (.replace span inserted :: rest) =
        applyChanges table (some (least bound (table.offset span.start))) reached rest := by
  have hstart : min (table.offset span.start) text.length =
      least bound (table.offset span.start) := by
    cases bound with
    | none => exact Nat.min_eq_left (reaches span.start)
    | some last =>
        have hreaches : last ≤ text.length := reaches
        have hlast := inOrder last rfl
        show min (table.offset span.start) text.length = min last (table.offset span.start)
        omega
  have hfilter : bound.filter (· < least bound (table.offset span.start)) = none := by
    rw [Option.filter_eq_none_iff]
    rintro last ⟨⟩
    have hle : least (some last) (table.offset span.start) ≤ last := Nat.min_le_left _ _
    simpa using hle
  refine ⟨(Splice.resolve table text.length span inserted).apply text, ?_, fun rest => ?_⟩
  · rw [← hstart]
    exact Splice.start_le_length_apply _ (Splice.fits_resolve _ _ _ _)
  · rw [applyChanges, Splice.resolve, hstart]
    simp only [hfilter]

/-! ## Changes in order -/

/-- One more start counts towards the least of the starts. -/
theorem min?_least (bound : Option Nat) (start : Nat) (starts : List Nat) :
    ((some (least bound start)).toList ++ starts).min? =
      (bound.toList ++ start :: starts).min? := by
  cases bound <;> rfl

/-- After changes that are all applied, the next one is bounded by the least of their starts. -/
theorem applyChanges_append_of_applied (spans : ∀ c ∈ earlier, c.isWhole = false)
    (reaches : Reaches table text bound)
    (applied : applyChanges table bound text earlier = (left, none)) (rest : List Change) :
    applyChanges table bound text (earlier ++ rest) =
      applyChanges table (bound.toList ++ Change.starts table earlier).min? left rest := by
  induction earlier generalizing bound text with
  | nil =>
      cases applied
      cases bound <;> rfl
  | cons change earlier ih =>
      obtain ⟨hspan, hspans⟩ := List.forall_mem_cons.mp spans
      cases change with
      | whole => cases hspan
      | replace span inserted =>
          rcases inOrder_or_behind bound (table.offset span.start) text.length with
            hordered | ⟨last, rfl, hbehind, hremains⟩
          · obtain ⟨reached, hreached, hrest⟩ :=
              applyChanges_cons_of_le reaches span inserted hordered
            rw [hrest] at applied
            rw [List.cons_append, hrest, ih hspans hreached applied, Change.starts_cons_replace,
              ← min?_least]
          · rw [applyChanges_cons_of_lt hbehind hremains] at applied
            cases applied

/-- Changes are refused for their order at the first that starts behind the least start before it,
if text is left there. -/
theorem applyChanges_eq_outOfOrder_iff (spans : ∀ c ∈ changes, c.isWhole = false)
    (reaches : Reaches table text bound) :
    applyChanges table bound text changes = (left, some (.outOfOrder previous start)) ↔
      ∃ earlier span inserted later, changes = earlier ++ .replace span inserted :: later ∧
        applyChanges table bound text earlier = (left, none) ∧
        (bound.toList ++ Change.starts table earlier).min? = some previous ∧
        previous < table.offset span.start ∧ previous < left.length ∧
        start = min (table.offset span.start) left.length := by
  constructor
  · intro refused
    induction changes generalizing bound text with
    | nil => cases refused
    | cons change changes ih =>
        obtain ⟨hspan, hspans⟩ := List.forall_mem_cons.mp spans
        cases change with
        | whole => cases hspan
        | replace span inserted =>
            rcases inOrder_or_behind bound (table.offset span.start) text.length with
              hordered | ⟨last, rfl, hbehind, hremains⟩
            · obtain ⟨reached, hreached, hrest⟩ :=
                applyChanges_cons_of_le reaches span inserted hordered
              rw [hrest] at refused
              obtain ⟨earlier, span', inserted', later, rfl, happlied, hmin, hbehind⟩ :=
                ih hspans hreached refused
              refine ⟨.replace span inserted :: earlier, span', inserted', later, rfl, ?_, ?_,
                hbehind⟩
              · rw [hrest, happlied]
              · rwa [Change.starts_cons_replace, ← min?_least]
            · rw [applyChanges_cons_of_lt hbehind hremains] at refused
              cases refused
              exact ⟨[], span, inserted, changes, rfl, rfl, rfl, hbehind, hremains, rfl⟩
  · rintro ⟨earlier, span, inserted, later, rfl, happlied, hmin, hbehind, hremains, rfl⟩
    have hearlier : ∀ c ∈ earlier, c.isWhole = false := fun c hc =>
      spans c (List.mem_append_left _ hc)
    rw [applyChanges_append_of_applied hearlier reaches happlied, hmin,
      applyChanges_cons_of_lt hbehind hremains]

/-! ## Batches -/

variable {b after : Buffer} {batch : Batch}

/-- Before any change, the text reaches as far as any start. -/
theorem reaches_none (b : Buffer) : Reaches b.lineTable b.text none :=
  fun p => LineTable.offset_le_length _ _ p

/-- Once its versions are accepted, a batch is applied or refused for its order. -/
theorem applied_or_outOfOrder (admitted : b.admission batch = .accepted) :
    (b.apply b.owner batch).2 = .ok (.applied batch.toVersion) ∨
      ∃ after previous start,
        b.apply b.owner batch = (after, .error (.outOfOrder previous start)) := by
  rcases hchanges : applyChanges b.lineTable none b.text batch.changes with ⟨left, _ | e⟩
  · left
    simp [apply, checkCaller, admitted, hchanges]
  · obtain ⟨previous, start, rfl⟩ := applyChanges_refusal hchanges
    refine .inr ⟨{ b with text := left }, previous, start, ?_⟩
    simp [apply, checkCaller, admitted, hchanges]

/-- In a batch some span starts behind `previous`, the least start before it, and the text `left` by
the changes before it reaches further than that. In this text the span starts at `start`. -/
def Overtakes (b : Buffer) (batch : Batch) (left : List Char) (previous start : Nat) : Prop :=
  ∃ earlier span inserted later, batch.changes = earlier ++ .replace span inserted :: later ∧
    applyChanges b.lineTable none b.text earlier = (left, none) ∧
    (Change.starts b.lineTable earlier).min? = some previous ∧
    previous < b.lineTable.offset span.start ∧ previous < left.length ∧
    start = min (b.lineTable.offset span.start) left.length

/-- A batch is refused for its order exactly where a span overtakes. -/
theorem apply_eq_outOfOrder_iff (spans : ∀ c ∈ batch.changes, c.isWhole = false)
    (admitted : b.admission batch = .accepted) :
    b.apply b.owner batch = (after, .error (.outOfOrder previous start)) ↔
      ∃ left, b.Overtakes batch left previous start ∧ after = { b with text := left } := by
  have hiff (left : List Char) : applyChanges b.lineTable none b.text batch.changes =
      (left, some (.outOfOrder previous start)) ↔ b.Overtakes batch left previous start :=
    applyChanges_eq_outOfOrder_iff spans b.reaches_none
  constructor
  · intro happly
    cases applying_of_apply happly with
    | outOfOrder own _ changes => exact ⟨_, (hiff _).mp changes, rfl⟩
  · rintro ⟨left, hovertakes, rfl⟩
    simp [apply, checkCaller, admitted, (hiff left).mpr hovertakes]

/-- Whenever a change of a batch is to come, those before it have left some text behind the least
of their starts. -/
def LeavesText (b : Buffer) (batch : Batch) : Prop :=
  ∀ earlier change later left least, batch.changes = earlier ++ change :: later →
    applyChanges b.lineTable none b.text earlier = (left, none) →
    (Change.starts b.lineTable earlier).min? = some least → least < left.length

/-- In a batch that is listed backwards no span overtakes. -/
theorem not_overtakes_of_pairwise (spans : ∀ c ∈ batch.changes, c.isWhole = false)
    (ordered : (Change.starts b.lineTable batch.changes).Pairwise (· ≥ ·)) :
    ¬ b.Overtakes batch left previous start := by
  rintro ⟨earlier, span, inserted, later, hchanges, -, hmin, hbehind, -, -⟩
  have hle := (Change.starts_pairwise_iff spans).mp ordered _ _ _ _ hchanges _ hmin
  exact Nat.not_lt.mpr hle hbehind

/-- In a batch that is not listed backwards some span overtakes, if there is always text left. -/
theorem exists_overtakes (spans : ∀ c ∈ batch.changes, c.isWhole = false)
    (leaves : b.LeavesText batch)
    (disordered : ¬ (Change.starts b.lineTable batch.changes).Pairwise (· ≥ ·)) :
    ∃ left previous start, b.Overtakes batch left previous start := by
  simp only [Change.starts_pairwise_iff spans, not_forall, Nat.not_le] at disordered
  obtain ⟨earlier, span, inserted, later, hchanges, least, hmin, hbehind⟩ := disordered
  rcases happlied : applyChanges b.lineTable none b.text earlier with ⟨left, _ | e⟩
  · exact ⟨left, least, _, earlier, span, inserted, later, hchanges, happlied, hmin, hbehind,
      leaves earlier _ later left least hchanges happlied hmin, rfl⟩
  · -- The changes before do not get that far, since one of their spans overtakes already.
    obtain ⟨previous, start, rfl⟩ := applyChanges_refusal happlied
    have hearlier : ∀ c ∈ earlier, c.isWhole = false := fun c hc =>
      spans c (hchanges ▸ List.mem_append_left _ hc)
    obtain ⟨first, span', inserted', rest, rfl, hfirst⟩ :=
      (applyChanges_eq_outOfOrder_iff hearlier b.reaches_none).mp happlied
    refine ⟨left, previous, start, first, span', inserted',
      rest ++ .replace span inserted :: later, ?_, hfirst⟩
    rw [hchanges, List.append_assoc, List.cons_append]

/-- **A batch is refused for its order only if it is out of order.** Once its versions are accepted,
a batch of spans is either applied or refused for its order, and it is applied if its spans are
listed from the end of the text backwards. It is refused at a span that starts behind the least
start before it, if the text that the changes before have left reaches further than that, and this
text stays. So as long as they leave some text there, batches are refused if and only if they are
out of order. -/
theorem batch_refused_out_of_order (spans : batch.hasWhole = false)
    (admitted : b.admission batch = .accepted) :
    ((b.apply b.owner batch).2 = .ok (.applied batch.toVersion) ∨
      ∃ previous start, (b.apply b.owner batch).2 = .error (.outOfOrder previous start)) ∧
    ((Change.starts b.lineTable batch.changes).Pairwise (· ≥ ·) →
      (b.apply b.owner batch).2 = .ok (.applied batch.toVersion)) ∧
    (∀ after previous start,
      b.apply b.owner batch = (after, .error (.outOfOrder previous start)) ↔
        ∃ left, b.Overtakes batch left previous start ∧ after = { b with text := left }) ∧
    (b.LeavesText batch →
      ((∃ previous start, (b.apply b.owner batch).2 = .error (.outOfOrder previous start)) ↔
        ¬ (Change.starts b.lineTable batch.changes).Pairwise (· ≥ ·))) := by
  have hspans : ∀ c ∈ batch.changes, c.isWhole = false := by simpa [Batch.hasWhole] using spans
  refine ⟨?_, fun ordered => ?_, fun _ _ _ => apply_eq_outOfOrder_iff hspans admitted,
    fun leaves => ⟨?_, fun disordered => ?_⟩⟩
  · rcases applied_or_outOfOrder admitted with happlied | ⟨after, previous, start, hrefused⟩
    · exact .inl happlied
    · exact .inr ⟨previous, start, congrArg Prod.snd hrefused⟩
  · rcases applied_or_outOfOrder admitted with happlied | ⟨after, previous, start, hrefused⟩
    · exact happlied
    · obtain ⟨left, hovertakes, -⟩ := (apply_eq_outOfOrder_iff hspans admitted).mp hrefused
      exact absurd hovertakes (not_overtakes_of_pairwise hspans ordered)
  · rintro ⟨previous, start, hrefused⟩ ordered
    obtain ⟨left, hovertakes, -⟩ :=
      (apply_eq_outOfOrder_iff hspans admitted).mp (Prod.ext rfl hrefused)
    exact not_overtakes_of_pairwise hspans ordered hovertakes
  · obtain ⟨left, previous, start, hovertakes⟩ := exists_overtakes hspans leaves disordered
    exact ⟨previous, start, congrArg Prod.snd
      ((apply_eq_outOfOrder_iff hspans admitted).mpr ⟨left, hovertakes, rfl⟩)⟩

/-- Two insertions are listed forwards. The first is kept when the second is refused. -/
theorem forward_insertions_refused :
    let b : Buffer := ⟨['a', 'b', '\n', 'c'], 1, ⟨0⟩, .utf16⟩
    let batch : Batch := ⟨1, 2, [.insert ⟨0, 1⟩ ['X'], .insert ⟨1, 1⟩ ['Y']]⟩
    batch.hasWhole = false ∧ b.admission batch = .accepted ∧ b.LeavesText batch ∧
      Change.starts b.lineTable batch.changes = [1, 4] ∧
      (∃ previous start, (b.apply b.owner batch).2 = .error (.outOfOrder previous start)) ∧
      b.Overtakes batch ['a', 'X', 'b', '\n', 'c'] 1 4 := by
  intro b batch
  have hspans : batch.hasWhole = false := rfl
  have hadmitted : b.admission batch = .accepted := by decide
  have hleaves : b.LeavesText batch := by
    rintro (_ | ⟨first, _ | ⟨second, rest⟩⟩) change later left least hchanges happlied hmin
    · cases hmin
    · cases hchanges
      cases happlied
      cases hmin
      decide
    · simp [batch] at hchanges
  have hdisordered : ¬ (Change.starts b.lineTable batch.changes).Pairwise (· ≥ ·) := by decide
  obtain ⟨-, -, hrefused, hiff⟩ := batch_refused_out_of_order hspans hadmitted
  obtain ⟨left, hovertakes, hafter⟩ :=
    (hrefused ⟨['a', 'X', 'b', '\n', 'c'], 1, ⟨0⟩, .utf16⟩ 1 4).mp rfl
  cases hafter
  exact ⟨hspans, hadmitted, hleaves, rfl, (hiff hleaves).mpr hdisordered, hovertakes⟩

/-- When all text from the start of the first span on is deleted, a span that starts behind it goes
through, although the batch is listed forwards. -/
theorem unordered_batch_applied :
    let b : Buffer := ⟨['a', 'b', 'c', 'd'], 1, ⟨0⟩, .utf16⟩
    let batch : Batch := ⟨1, 2, [.delete ⟨⟨0, 1⟩, ⟨0, 4⟩⟩, .insert ⟨0, 3⟩ ['X']]⟩
    batch.hasWhole = false ∧ b.admission batch = .accepted ∧
      Change.starts b.lineTable batch.changes = [1, 3] ∧
      ¬ (Change.starts b.lineTable batch.changes).Pairwise (· ≥ ·) ∧
      b.apply b.owner batch = (⟨['a', 'X'], 2, ⟨0⟩, .utf16⟩, .ok (.applied 2)) :=
  ⟨rfl, by decide, rfl, by decide, rfl⟩

end Buffer

end CodeInsight

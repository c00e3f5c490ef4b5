/-
# Edits one by one

A batch reads all its spans in the text before it. The same edits may also be sent in
batches of their own, each of which is read in the text that the ones before have left.
Both ways lead to the same text, as long as the edits go backwards through the text, at
exact positions and with something between each two of them.

An edit changes nothing before its start. So the text before the edit that comes next,
and the character behind it, are still the old ones when its turn comes, and its positions
are read as before, whatever has become of the lines further on.
-/

import CodeInsight.Proofs.Edit.Simultaneous
import CodeInsight.Proofs.Text.Agreement

namespace CodeInsight

/-- An edit of a span, with the version that it leads to when it is sent alone. -/
structure SpanEdit where
  version : Version
  span : Span
  text : List Char
  deriving DecidableEq

namespace SpanEdit

/-- The edit as a change of a batch. -/
def change (e : SpanEdit) : Change := .replace e.span e.text

/-- The edit as a splice of the text of a table. -/
def splice (e : SpanEdit) (t : LineTable) : Splice :=
  ⟨t.offset e.span.start, t.offset e.span.stop, e.text⟩

/-- The version that edits lead to when they are sent one after the other. -/
def lastVersion (start : Version) : List SpanEdit → Version
  | [] => start
  | e :: rest => lastVersion e.version rest

/-- All edits in one batch. -/
def together (start : Version) (edits : List SpanEdit) : Batch :=
  ⟨start, lastVersion start edits, edits.map change⟩

/-- Each edit in a batch of its own. -/
def oneByOne (start : Version) : List SpanEdit → List Batch
  | [] => []
  | e :: rest => ⟨start, e.version, [e.change]⟩ :: oneByOne e.version rest

/-- The span of an edit lies between two exact positions and is not inverted. -/
structure IsExact (t : LineTable) (e : SpanEdit) : Prop where
  start : t.IsExact e.span.start
  stop : t.IsExact e.span.stop
  ordered : t.offset e.span.start ≤ t.offset e.span.stop

instance (t : LineTable) (e : SpanEdit) : Decidable (e.IsExact t) :=
  decidable_of_iff
    (t.IsExact e.span.start ∧ t.IsExact e.span.stop ∧
      t.offset e.span.start ≤ t.offset e.span.stop)
    ⟨fun ⟨start, stop, ordered⟩ => ⟨start, stop, ordered⟩,
      fun ⟨start, stop, ordered⟩ => ⟨start, stop, ordered⟩⟩

/-- Some character lies between an edit and the one listed before it. -/
def IsApart (t : LineTable) (previous next : SpanEdit) : Prop :=
  t.offset next.span.stop < t.offset previous.span.start

instance (t : LineTable) (previous next : SpanEdit) : Decidable (previous.IsApart t next) :=
  inferInstanceAs (Decidable (_ < _))

theorem hasWhole_together (start : Version) (edits : List SpanEdit) :
    (together start edits).hasWhole = false := by
  simp [Batch.hasWhole, together, change, Change.isWhole]

/-- Sent one after the other, edits only move the version forward. -/
theorem lt_lastVersion {start : Version} {e : SpanEdit} {rest : List SpanEdit}
    (forward : (start :: (e :: rest).map (·.version)).IsChain (· < ·)) :
    start < lastVersion start (e :: rest) := by
  induction rest generalizing start e with
  | nil => exact (List.isChain_cons_cons.mp forward).1
  | cons next rest ih =>
      obtain ⟨hlt, hrest⟩ := List.isChain_cons_cons.mp forward
      exact Int32.lt_trans hlt (ih hrest)

end SpanEdit

/-- A splice leaves everything before its start alone. -/
theorem Splice.agreeBefore_apply {s : Splice} {text : List Char} (within : s.start ≤ text.length) :
    AgreeBefore text (s.apply text) s.start := by
  intro i hi
  rw [apply, List.append_assoc, List.getElem?_append_left, List.getElem?_take, if_pos hi]
  rw [List.length_take]
  omega

namespace Buffer

open SpanEdit

variable {b : Buffer} {text : List Char} {limit : Nat} {e : SpanEdit} {edits : List SpanEdit}

/-- A batch of spans whose versions pass and whose changes are in order is applied. -/
theorem apply_eq_applied {batch : Batch} {after : List Char} (spans : batch.hasWhole = false)
    (current : batch.fromVersion = b.version) (forward : batch.fromVersion < batch.toVersion)
    (changes : applyChanges b.lineTable none b.text batch.changes = (after, none)) :
    b.apply b.owner batch =
      ({ b with text := after, version := batch.toVersion }, .ok (.applied batch.toVersion)) := by
  simp only [apply, checkCaller, if_pos, admission_eq_accepted spans (fun _ => current) forward,
    changes]

/-- In a buffer whose text is the old one up to behind an edit, the edit is read as in the old text,
be it in the table of the old text or in that of the buffer. -/
theorem resolve_eq_splice (agree : AgreeBefore text b.text limit)
    (exact : e.IsExact (.ofText text b.encoding))
    (before : LineTable.offset (.ofText text b.encoding) e.span.stop < limit) :
    Splice.resolve (.ofText text b.encoding) b.text.length e.span e.text =
        e.splice (.ofText text b.encoding) ∧
      Splice.resolve b.lineTable b.text.length e.span e.text =
        e.splice (.ofText text b.encoding) := by
  have hordered := exact.ordered
  have hwithin := agree.le_length before (LineTable.offset_le_length text b.encoding e.span.stop)
  have hstart : b.lineTable.offset e.span.start = _ := exact.start.offset_eq agree (by omega)
  have hstop : b.lineTable.offset e.span.stop = _ := exact.stop.offset_eq agree before
  constructor
  · exact Splice.resolve_eq (Nat.max_le.mpr ⟨by omega, hwithin⟩)
  · rw [Splice.resolve_eq, hstart, hstop]
    · rfl
    · rw [hstart, hstop]
      exact Nat.max_le.mpr ⟨by omega, hwithin⟩

/-- The buffer after an edit whose positions are read in the text of a table. -/
def edited (b : Buffer) (t : LineTable) (e : SpanEdit) : Buffer :=
  { b with text := (e.splice t).apply b.text, version := e.version }

/-- The edit leaves the old text before its start alone. -/
theorem agreeBefore_edited (agree : AgreeBefore text b.text limit)
    (exact : e.IsExact (.ofText text b.encoding))
    (before : LineTable.offset (.ofText text b.encoding) e.span.stop < limit) :
    AgreeBefore text (b.edited (.ofText text b.encoding) e).text
      (LineTable.offset (.ofText text b.encoding) e.span.start) := by
  have hordered := exact.ordered
  have hstart := agree.le_length (Nat.lt_of_le_of_lt hordered before)
    (LineTable.offset_le_length text b.encoding e.span.start)
  exact (agree.mono (by omega)).trans (Splice.agreeBefore_apply hstart)

/-- Sent alone, the edit is applied. -/
theorem apply_single (agree : AgreeBefore text b.text limit)
    (exact : e.IsExact (.ofText text b.encoding))
    (before : LineTable.offset (.ofText text b.encoding) e.span.stop < limit)
    (forward : b.version < e.version) :
    b.apply b.owner ⟨b.version, e.version, [e.change]⟩ =
      (b.edited (.ofText text b.encoding) e, .ok (.applied e.version)) := by
  obtain ⟨-, hcurrent⟩ := resolve_eq_splice agree exact before
  have hchanges : applyChanges b.lineTable none b.text [e.change] =
      ((e.splice (.ofText text b.encoding)).apply b.text, none) := by
    simp [applyChanges, change, hcurrent]
  exact apply_eq_applied rfl rfl forward hchanges

/-- As the next change of a batch, the edit is applied to the same effect. -/
theorem applyChanges_cons_edit (agree : AgreeBefore text b.text limit)
    (exact : e.IsExact (.ofText text b.encoding))
    (before : LineTable.offset (.ofText text b.encoding) e.span.stop < limit)
    {bound : Option Nat} (bounded : ∀ last ∈ bound, limit ≤ last) (changes : List Change) :
    applyChanges (.ofText text b.encoding) bound b.text (e.change :: changes) =
      applyChanges (.ofText text b.encoding)
        (some (LineTable.offset (.ofText text b.encoding) e.span.start))
        (b.edited (.ofText text b.encoding) e).text changes := by
  obtain ⟨hold, -⟩ := resolve_eq_splice agree exact before
  have hbound : bound.filter (· < (e.splice (.ofText text b.encoding)).start) = none := by
    rw [Option.filter_eq_none_iff]
    intro last hlast
    rw [decide_eq_true_eq, Nat.not_lt]
    exact Nat.le_trans exact.ordered (Nat.le_trans (Nat.le_of_lt before) (bounded last hlast))
  rw [change, applyChanges, hold]
  simp only [hbound]
  rfl

/-- From a buffer whose text is the old one up to behind the first edit, the changes of all edits,
read in the old text, and the batches of single edits lead to the same. -/
theorem applyAll_oneByOne (agree : AgreeBefore text b.text limit)
    (exact : ∀ e ∈ edits, e.IsExact (.ofText text b.encoding))
    (first : ∀ e ∈ edits.head?, LineTable.offset (.ofText text b.encoding) e.span.stop < limit)
    (apart : edits.IsChain (IsApart (.ofText text b.encoding)))
    (forward : (b.version :: edits.map (·.version)).IsChain (· < ·))
    {bound : Option Nat} (bounded : ∀ last ∈ bound, limit ≤ last) :
    ∃ after,
      applyChanges (.ofText text b.encoding) bound b.text (edits.map change) = (after, none) ∧
      b.applyAll b.owner (oneByOne b.version edits) =
        ({ b with text := after, version := lastVersion b.version edits },
          .ok (edits.map fun e => .applied e.version)) := by
  -- What the later edits look at lies before the start of the first, where it changes nothing.
  induction edits generalizing b limit bound with
  | nil => exact ⟨b.text, rfl, rfl⟩
  | cons e rest ih =>
      obtain ⟨hexact, hrestExact⟩ := List.forall_mem_cons.mp exact
      obtain ⟨hnext, hchain⟩ := List.isChain_cons.mp apart
      obtain ⟨hlt, hforward⟩ := List.isChain_cons_cons.mp forward
      have hbefore := first e rfl
      have hbounded : ∀ last ∈ some (LineTable.offset (.ofText text b.encoding) e.span.start),
          LineTable.offset (.ofText text b.encoding) e.span.start ≤ last :=
        fun last hlast => Nat.le_of_eq (Option.some.inj hlast)
      obtain ⟨after, hchanges, hall⟩ := ih (agreeBefore_edited agree hexact hbefore) hrestExact
        hnext hchain hforward hbounded
      refine ⟨after, ?_, ?_⟩
      · rw [List.map_cons, applyChanges_cons_edit agree hexact hbefore bounded]
        exact hchanges
      · have hrest : (b.edited (.ofText text b.encoding) e).applyAll b.owner
            (oneByOne e.version rest) = _ := hall
        rw [oneByOne, applyAll_cons_of_ok (apply_single agree hexact hbefore hlt), hrest]
        rfl

/-- **A batch agrees with the same edits sent one at a time.** Edits are listed backwards through
the text of a buffer, their positions are exact in this text, and something stands between each two
of them. Sent in one batch or each in a batch of its own, with increasing versions from that of the
buffer on, they are all applied and leave the same text at the same version. -/
theorem batch_agrees_with_single_edits {b : Buffer} {edits : List SpanEdit} (nonempty : edits ≠ [])
    (exact : ∀ e ∈ edits, e.IsExact b.lineTable) (apart : edits.IsChain (IsApart b.lineTable))
    (forward : (b.version :: edits.map (·.version)).IsChain (· < ·)) :
    ∃ after : Buffer, after.version = lastVersion b.version edits ∧
      b.apply b.owner (together b.version edits) = (after, .ok (.applied after.version)) ∧
      b.applyAll b.owner (oneByOne b.version edits) =
        (after, .ok (edits.map fun e => .applied e.version)) := by
  have hagree : AgreeBefore b.text b.text (b.text.length + 1) := .refl _ _
  have hfirst : ∀ e ∈ edits.head?, b.lineTable.offset e.span.stop < b.text.length + 1 :=
    fun e _ => Nat.lt_succ_of_le (LineTable.offset_le_length b.text b.encoding e.span.stop)
  have hunbound : ∀ last ∈ (none : Option Nat), b.text.length + 1 ≤ last := nofun
  obtain ⟨after, hchanges, hall⟩ := applyAll_oneByOne hagree exact hfirst apart forward hunbound
  refine ⟨{ b with text := after, version := lastVersion b.version edits }, rfl, ?_, hall⟩
  obtain ⟨e, rest, rfl⟩ := List.exists_cons_of_ne_nil nonempty
  exact apply_eq_applied (hasWhole_together _ _) rfl (lt_lastVersion forward) hchanges

/-- A line break replaced by two, a line emptied, and a carriage return that comes to stand
alone. -/
theorem batch_agrees_with_single_edits_at_terminators :
    let b : Buffer := ⟨['a', '\r', '\n', 'b', '\n', '😀', 'c'], 0, ⟨0⟩, .utf16⟩
    let edits : List SpanEdit := [⟨1, ⟨⟨2, 0⟩, ⟨2, 2⟩⟩, ['\n', '\n']⟩, ⟨2, ⟨⟨1, 0⟩, ⟨1, 1⟩⟩, []⟩,
      ⟨5, ⟨⟨0, 0⟩, ⟨0, 1⟩⟩, ['x', '\r']⟩]
    edits ≠ [] ∧ (∀ e ∈ edits, e.IsExact b.lineTable) ∧ edits.IsChain (IsApart b.lineTable) ∧
      (b.version :: edits.map (·.version)).IsChain (· < ·) ∧
      ∃ after : Buffer,
        after = ⟨['x', '\r', '\r', '\n', '\n', '\n', '\n', 'c'], 5, ⟨0⟩, .utf16⟩ ∧
        b.apply b.owner (together b.version edits) = (after, .ok (.applied 5)) ∧
        b.applyAll b.owner (oneByOne b.version edits) =
          (after, .ok [.applied 1, .applied 2, .applied 5]) := by
  intro b edits
  have hnonempty : edits ≠ [] := by decide
  have hexact : ∀ e ∈ edits, e.IsExact b.lineTable := by decide
  have hapart : edits.IsChain (IsApart b.lineTable) := by decide
  have hforward : (b.version :: edits.map (·.version)).IsChain (· < ·) := by decide
  obtain ⟨after, hversion, htogether, hsingle⟩ :=
    batch_agrees_with_single_edits hnonempty hexact hapart hforward
  have hcomputed : (b.apply b.owner (together b.version edits)).1 =
      ⟨['x', '\r', '\r', '\n', '\n', '\n', '\n', 'c'], 5, ⟨0⟩, .utf16⟩ := by decide +kernel
  rw [htogether] at hcomputed
  rw [hversion] at htogether
  exact ⟨hnonempty, hexact, hapart, hforward, after, hcomputed, htogether, hsingle⟩

end Buffer

end CodeInsight

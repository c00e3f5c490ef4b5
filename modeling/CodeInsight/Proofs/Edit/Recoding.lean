/-
# Edits in other encodings

Columns are counted in units of an encoding, but nothing else about a buffer depends
on it. A batch may therefore be told in another encoding: each position is replaced by
the one that has the same offset in the text before the batch. A buffer that counts
in the other encoding then makes the same of it, down to the offsets in a refusal and
to what a refused batch leaves behind.

The offsets of positions are never inside a terminator, and so each of them has an
exact position in every encoding. This is all that the two buffers have to share.
-/

import CodeInsight.Proofs.Edit.Replay
import CodeInsight.Proofs.Text.Conversion

namespace CodeInsight

/-! ## Telling positions in another table -/

/-- The position in `target` of the offset that a position has in `source`. -/
def Position.recode (source target : LineTable) (p : Position) : Position :=
  target.position (source.offset p)

/-- A span with both its ends told in another table. -/
def Span.recode (source target : LineTable) (s : Span) : Span :=
  ⟨s.start.recode source target, s.stop.recode source target⟩

/-- A change with its span told in another table. -/
def Change.recode (source target : LineTable) : Change → Change
  | .whole text => .whole text
  | .replace span text => .replace (span.recode source target) text

/-- A batch with all its spans told in another table. -/
def Batch.recode (source target : LineTable) (batch : Batch) : Batch :=
  { batch with changes := batch.changes.map (Change.recode source target) }

/-- Each position that is told in `target` is read there as the offset it has in `source`. -/
def LineTable.Recodes (source target : LineTable) : Prop :=
  ∀ p : Position, target.offset (p.recode source target) = source.offset p

theorem LineTable.recodes_ofText {text : List Char} {encoding other : ColumnEncoding}
    (fits : (ofText text other).FitsWords) : (ofText text encoding).Recodes (ofText text other) :=
  offset_position_offset fits

variable {source target : LineTable}

theorem Batch.hasWhole_recode (source target : LineTable) (batch : Batch) :
    (batch.recode source target).hasWhole = batch.hasWhole := by
  have hkind (c : Change) : (c.recode source target).isWhole = c.isWhole := by cases c <;> rfl
  simp only [hasWhole, recode, List.any_map, Function.comp_def, hkind]

theorem Splice.resolve_recode (recodes : source.Recodes target) (length : Nat) (span : Span)
    (text : List Char) :
    resolve target length (span.recode source target) text = resolve source length span text := by
  rw [resolve, resolve, Span.recode, recodes, recodes]

namespace Buffer

/-! ## One batch -/

theorem applyChanges_recode (recodes : source.Recodes target) (bound : Option Nat)
    (text : List Char) (changes : List Change) :
    applyChanges target bound text (changes.map (Change.recode source target)) =
      applyChanges source bound text changes := by
  induction changes generalizing bound text with
  | nil => rfl
  | cons change changes ih =>
      cases change with
      | whole replacement => exact ih bound replacement
      | replace span inserted =>
          rw [List.map_cons, Change.recode, applyChanges, applyChanges,
            Splice.resolve_recode recodes]
          simp only [ih]

/-- Two buffers that hold the same text at the same version. -/
structure SameContent (b other : Buffer) : Prop where
  text : other.text = b.text
  version : other.version = b.version

namespace SameContent

variable {b other : Buffer}

theorem admission_recode (same : b.SameContent other) (batch : Batch) :
    other.admission (batch.recode source target) = b.admission batch := by
  have hbaseline : other.hasBaseline = b.hasBaseline := by
    rw [hasBaseline, hasBaseline, same.version]
  rw [admission, admission, Batch.hasWhole_recode, hbaseline, same.version]
  rfl

/-- A batch that is told in the table of the other buffer is answered there in the same way and leaves
the same behind. -/
theorem apply_recode (same : b.SameContent other)
    (recodes : b.lineTable.Recodes other.lineTable) (batch : Batch) :
    (b.apply b.owner batch).1.SameContent
        (other.apply other.owner (batch.recode b.lineTable other.lineTable)).1 ∧
      (other.apply other.owner (batch.recode b.lineTable other.lineTable)).2 =
        (b.apply b.owner batch).2 := by
  rw [apply, apply, checkCaller, checkCaller, if_pos rfl, if_pos rfl]
  simp only [same.admission_recode batch]
  cases b.admission batch with
  | stale =>
      refine ⟨same, ?_⟩
      rw [same.version]
      rfl
  | refused e => exact ⟨same, rfl⟩
  | accepted =>
      have hchanges : applyChanges other.lineTable none other.text
          (batch.recode b.lineTable other.lineTable).changes =
            applyChanges b.lineTable none b.text batch.changes := by
        rw [same.text]
        exact applyChanges_recode recodes none b.text batch.changes
      simp only [hchanges]
      rcases applyChanges b.lineTable none b.text batch.changes with ⟨text, _ | e⟩
      · exact ⟨⟨rfl, rfl⟩, rfl⟩
      · exact ⟨⟨rfl, same.version⟩, rfl⟩

end SameContent

/-! ## Sequences of operations -/

/-- What the owner of a buffer does to it. -/
inductive Operation where
  | reset (version : Version) (text : List Char)
  | apply (batch : Batch)

/-- An operation with the spans of a batch told in another table. -/
def Operation.recode (source target : LineTable) : Operation → Operation
  | .reset version text => .reset version text
  | .apply batch => .apply (batch.recode source target)

/-- The buffer after the owner has done something to it, and the answer. A reset that succeeds has
none. -/
def perform (b : Buffer) : Operation → Buffer × Except EditError (Option BatchOutcome)
  | .reset version text =>
    match b.reset b.owner version text with
    | .ok after => (after, .ok none)
    | .error e => (b, .error e)
  | .apply batch =>
    let (after, answer) := b.apply b.owner batch
    (after, answer.map some)

/-- What the host can tell of a step: the answer, and the content of the buffer after it. -/
structure Observation where
  answer : Except EditError (Option BatchOutcome)
  text : List Char
  version : Version

/-- What the host can tell of operations, one after the other. -/
def observe (b : Buffer) : List Operation → List Observation
  | [] => []
  | operation :: rest =>
    let after := (b.perform operation).1
    ⟨(b.perform operation).2, after.text, after.version⟩ :: after.observe rest

/-- The operations with all spans told in another encoding, each in the text before its batch. -/
def recodeAll (b : Buffer) (encoding : ColumnEncoding) : List Operation → List Operation
  | [] => []
  | operation :: rest =>
    operation.recode b.lineTable (.ofText b.text encoding) ::
      (b.perform operation).1.recodeAll encoding rest

/-- Whenever a batch arrives, line numbers and columns of the text fit into the words of a position. -/
def FitsThroughout (b : Buffer) (encoding : ColumnEncoding) : List Operation → Prop
  | [] => True
  | .reset version text :: rest =>
    (b.perform (.reset version text)).1.FitsThroughout encoding rest
  | .apply batch :: rest =>
    (LineTable.ofText b.text encoding).FitsWords ∧
      (b.perform (.apply batch)).1.FitsThroughout encoding rest

theorem perform_reset (b : Buffer) (version : Version) (text : List Char) :
    b.perform (.reset version text) = ({ b with text, version }, .ok none) := by
  simp [perform, reset, checkCaller, bind, Except.bind, pure, Except.pure]

theorem encoding_perform (b : Buffer) (operation : Operation) :
    (b.perform operation).1.encoding = b.encoding := by
  cases operation with
  | reset version text => rw [perform_reset]
  | apply batch => exact (b.applying_apply b.owner batch).encoding

variable {b other : Buffer}

/-- One operation, told in the table of the other buffer if it is a batch. -/
theorem SameContent.perform_recode (same : b.SameContent other) {operation : Operation}
    {rest : List Operation} (fits : b.FitsThroughout other.encoding (operation :: rest)) :
    (b.perform operation).1.SameContent
        (other.perform (operation.recode b.lineTable (.ofText b.text other.encoding))).1 ∧
      (other.perform (operation.recode b.lineTable (.ofText b.text other.encoding))).2 =
        (b.perform operation).2 ∧
      (b.perform operation).1.FitsThroughout other.encoding rest := by
  cases operation with
  | reset version text =>
      refine ⟨?_, ?_, fits⟩
      · rw [Operation.recode, perform_reset, perform_reset]
        exact ⟨rfl, rfl⟩
      · rw [Operation.recode, perform_reset, perform_reset]
  | apply batch =>
      obtain ⟨hfits, hrest⟩ := fits
      have htable : LineTable.ofText b.text other.encoding = other.lineTable := by
        rw [lineTable, same.text]
      have hrecodes : b.lineTable.Recodes other.lineTable :=
        htable ▸ LineTable.recodes_ofText hfits
      obtain ⟨hsame, hanswer⟩ := same.apply_recode hrecodes batch
      rw [Operation.recode, htable]
      exact ⟨hsame, congrArg (Except.map some) hanswer, hrest⟩

/-- **The encoding of columns does not affect editing.** Two buffers start with the same text at the
same version and count columns in any two encodings. Whatever the owner of the first does to it, the
owner of the second does the same to that, with each position told as the one that has its offset
there. Then the two answer alike at every step, refusals with their offsets included, and hold the
same text at the same version after it, whether a batch was applied, dropped, refused or left in
part. -/
theorem observe_recodeAll {operations : List Operation} (sameText : other.text = b.text)
    (sameVersion : other.version = b.version)
    (fits : b.FitsThroughout other.encoding operations) :
    other.observe (b.recodeAll other.encoding operations) = b.observe operations := by
  induction operations generalizing b other with
  | nil => rfl
  | cons operation rest ih =>
      have same : b.SameContent other := ⟨sameText, sameVersion⟩
      obtain ⟨hafter, hanswer, hrest⟩ := same.perform_recode fits
      rw [← encoding_perform other (operation.recode b.lineTable (.ofText b.text other.encoding))]
        at hrest
      have hlater := ih hafter.text hafter.version hrest
      rw [encoding_perform] at hlater
      simp only [recodeAll, observe, hanswer, hafter.text, hafter.version, hlater]

instance (b : Buffer) (encoding : ColumnEncoding) (operations : List Operation) :
    Decidable (b.FitsThroughout encoding operations) :=
  match operations with
  | [] => .isTrue trivial
  | .reset version text :: rest =>
    instDecidableFitsThroughout (b.perform (.reset version text)).1 encoding rest
  | .apply batch :: rest =>
    have := instDecidableFitsThroughout (b.perform (.apply batch)).1 encoding rest
    inferInstanceAs (Decidable (_ ∧ _))

/-- A text with a character of four bytes and two code units, in a buffer that counts bytes. -/
def emoji : Buffer := ⟨['a', '😀', '\r', '\n', 'b'], 1, ⟨0⟩, .utf8⟩

/-- A batch with a column inside the character and another behind its line, one that is refused after
its first change, one that comes too early, and the whole text with an edit of it. -/
def emojiEdits : List Operation :=
  [.apply ⟨1, 2, [.replace ⟨⟨0, 3⟩, ⟨0, 99⟩⟩ ['é']]⟩,
    .apply ⟨2, 3, [.insert ⟨0, 1⟩ ['c'], .insert ⟨0, 3⟩ ['d']]⟩,
    .apply ⟨7, 8, []⟩,
    .reset 4 ['é', '😀'],
    .apply ⟨4, 5, [.delete ⟨⟨0, 2⟩, ⟨0, 6⟩⟩]⟩]

theorem observe_recodeAll_emoji :
    let other : Buffer := { emoji with owner := ⟨1⟩, encoding := .utf16 }
    emoji.FitsThroughout other.encoding emojiEdits ∧
      other.observe (emoji.recodeAll other.encoding emojiEdits) = emoji.observe emojiEdits ∧
      other.observe (emoji.recodeAll other.encoding emojiEdits) =
        [⟨.ok (some (.applied 2)), ['a', 'é', '\r', '\n', 'b'], 2⟩,
          ⟨.error (.outOfOrder 1 2), ['a', 'c', 'é', '\r', '\n', 'b'], 2⟩,
          ⟨.error (.missingVersions 2 7), ['a', 'c', 'é', '\r', '\n', 'b'], 2⟩,
          ⟨.ok none, ['é', '😀'], 4⟩, ⟨.ok (some (.applied 5)), ['é'], 5⟩] := by
  intro other
  have hfits : emoji.FitsThroughout other.encoding emojiEdits := by decide
  have hsame : other.observe (emoji.recodeAll other.encoding emojiEdits) =
      emoji.observe emojiEdits := observe_recodeAll rfl rfl hfits
  exact ⟨hfits, hsame, hsame.trans rfl⟩

end Buffer

end CodeInsight

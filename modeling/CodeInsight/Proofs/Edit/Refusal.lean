/-
# What a refused batch leaves behind

Batches are applied up to the first that is refused, and those behind it are never looked
at. What is left is the buffer as the batches before the refused one have made it. If the
refused batch was out of order, the changes that it lists before the offending one are
kept, and that is all: the version stays, and so do owner and encoding.

The changes of a batch are followed here without the check of their order. `Change.edit`
says what a single change makes of a text, `Change.startsFound` where spans start in the
text that they find, and the check is a statement about these starts.
-/

import CodeInsight.Proofs.Edit.Progress
import Mathlib.Data.List.Chain

namespace CodeInsight

namespace Change

/-- The text after one change, its span read in `table` and kept within the text. -/
def edit (table : LineTable) (text : List Char) : Change → List Char
  | whole replacement => replacement
  | replace span inserted => (Splice.resolve table text.length span inserted).apply text

/-- The text after changes, whatever the order of their spans. -/
def editAll (table : LineTable) (text : List Char) (changes : List Change) : List Char :=
  changes.foldl (edit table) text

/-- Where the spans of changes start, each in the text that the changes before it have left. -/
def startsFound (table : LineTable) : (text : List Char) → List Change → List Nat
  | _, [] => []
  | _, whole replacement :: rest => startsFound table replacement rest
  | text, replace span inserted :: rest =>
    let splice := Splice.resolve table text.length span inserted
    splice.start :: startsFound table (splice.apply text) rest

end Change

namespace Buffer

variable {b left : Buffer} {caller : ThreadId} {batch : Batch} {e : EditError}

/-- Behind the changes `earlier` of a batch a span starts at `start`, which is behind `previous`,
where the span listed before it starts. No span among `earlier` does the like. -/
structure Offends (b : Buffer) (earlier : List Change) (span : Span) (previous start : Nat) :
    Prop where
  backwards : (Change.startsFound b.lineTable b.text earlier).IsChain (· ≥ ·)
  last : (Change.startsFound b.lineTable b.text earlier).getLast? = some previous
  start_eq :
    start = min (b.lineTable.offset span.start) (Change.editAll b.lineTable b.text earlier).length
  behind : previous < start

/-- What a batch that is refused leaves of a buffer. -/
def LeavesBehind (b : Buffer) (batch : Batch) (left : Buffer) : EditError → Prop
  | .missingVersions _ _ | .nonMonotonicVersion _ _ | .foreignThread => left = b
  | .outOfOrder previous start =>
    ∃ earlier span inserted later, batch.changes = earlier ++ .replace span inserted :: later ∧
      b.Offends earlier span previous start ∧
      left = { b with text := Change.editAll b.lineTable b.text earlier }

/-! ## One batch -/

/-- Changes that are refused for their order are applied up to the first span that starts behind the
one before it. -/
theorem exists_offending_of_refused {table : LineTable} {bound : Option Nat}
    {text rest : List Char} {changes : List Change} {previous start : Nat}
    (refused : applyChanges table bound text changes = (rest, some (.outOfOrder previous start))) :
    ∃ earlier span inserted later, changes = earlier ++ .replace span inserted :: later ∧
      (bound.toList ++ Change.startsFound table text earlier).IsChain (· ≥ ·) ∧
      (bound.toList ++ Change.startsFound table text earlier).getLast? = some previous ∧
      rest = Change.editAll table text earlier ∧
      start = min (table.offset span.start) rest.length ∧ previous < start := by
  fun_induction applyChanges table bound text changes with
  | case1 => simp at refused
  | case2 bound text replacement changes ih =>
      obtain ⟨earlier, span, inserted, later, rfl, hoffends⟩ := ih refused
      exact ⟨.whole replacement :: earlier, span, inserted, later, rfl, hoffends⟩
  | case3 bound text span inserted changes splice last hbound =>
      cases refused
      obtain ⟨rfl, hbehind⟩ := Option.filter_eq_some_iff.mp hbound
      exact ⟨[], span, inserted, changes, rfl, .singleton _, rfl, rfl, rfl,
        of_decide_eq_true hbehind⟩
  | case4 bound text span inserted changes splice hbound ih =>
      obtain ⟨earlier, span', inserted', later, rfl, hchain, hlast, hoffends⟩ := ih refused
      refine ⟨.replace span inserted :: earlier, span', inserted', later, rfl, ?_, ?_, hoffends⟩
      · cases bound with
        | none => exact hchain
        | some last =>
            have hbefore : splice.start ≤ last := by
              simpa using Option.filter_eq_none_iff.mp hbound last rfl
            exact .cons_cons hbefore hchain
      · cases bound with
        | none => exact hlast
        | some last => exact (List.getLast?_cons_cons ..).trans hlast

/-- A batch that is refused leaves what it should. -/
theorem Applying.leavesBehind (applying : b.Applying caller batch left (.error e)) :
    b.LeavesBehind batch left e := by
  cases applying with
  | outOfOrder own admitted changes =>
      obtain ⟨earlier, span, inserted, later, hchanges, hchain, hlast, rfl, hstart, hbehind⟩ :=
        exists_offending_of_refused changes
      exact ⟨earlier, span, inserted, later, hchanges, ⟨hchain, hlast, hstart, hbehind⟩, rfl⟩
  | foreign | missing | standing => rfl

/-- Only a batch out of order leaves anything else than what it has found. -/
theorem LeavesBehind.eq_of_whole (leaves : b.LeavesBehind batch left e)
    (whole : e.isPartial = false) : left = b := by
  cases e with
  | outOfOrder previous start => cases whole
  | missingVersions | nonMonotonicVersion | foreignThread => exact leaves

theorem Applying.owner_encoding {answer : Except EditError BatchOutcome}
    (applying : b.Applying caller batch left answer) :
    left.owner = b.owner ∧ left.encoding = b.encoding := by
  cases applying <;> exact ⟨rfl, rfl⟩

/-! ## Batches in order -/

variable {reached : Buffer} {batches earlier : List Batch} {outcomes : List BatchOutcome}

/-- Where all of some batches are accepted, those behind them are applied to what they leave. -/
theorem applyAll_append (accepted : b.applyAll caller earlier = (reached, .ok outcomes))
    (rest : List Batch) :
    b.applyAll caller (earlier ++ rest) =
      ((reached.applyAll caller rest).1, (reached.applyAll caller rest).2.map (outcomes ++ ·)) := by
  induction earlier generalizing b outcomes with
  | nil =>
      cases accepted
      rw [List.nil_append]
      rcases reached.applyAll caller rest with ⟨last, _ | _⟩ <;> rfl
  | cons first earlier ih =>
      rcases happly : b.apply caller first with ⟨middle, e | outcome⟩
      · rw [applyAll_cons_of_error happly] at accepted
        cases accepted
      · rw [applyAll_cons_of_ok happly] at accepted
        rcases hmiddle : middle.applyAll caller earlier with ⟨last, e | later⟩
        · rw [hmiddle] at accepted
          cases accepted
        · rw [hmiddle] at accepted
          cases accepted
          rw [List.cons_append, applyAll_cons_of_ok happly, ih hmiddle]
          rcases last.applyAll caller rest with ⟨left, _ | _⟩ <;> rfl

/-- When batches are refused, it is at the first of them that is refused itself. -/
theorem exists_refused_of_applyAll (refused : (b.applyAll caller batches).2 = .error e) :
    ∃ earlier batch later outcomes reached left, batches = earlier ++ batch :: later ∧
      outcomes.length = earlier.length ∧ b.applyAll caller earlier = (reached, .ok outcomes) ∧
      reached.apply caller batch = (left, .error e) := by
  induction batches generalizing b with
  | nil => cases refused
  | cons first rest ih =>
      rcases happly : b.apply caller first with ⟨middle, e' | outcome⟩
      · rw [applyAll_cons_of_error happly] at refused
        cases refused
        exact ⟨[], first, rest, [], b, middle, rfl, rfl, rfl, happly⟩
      · rw [applyAll_cons_of_ok happly] at refused
        have hrest : (middle.applyAll caller rest).2 = .error e := by
          cases hanswer : (middle.applyAll caller rest).2 <;> rw [hanswer] at refused <;>
            cases refused
          rfl
        obtain ⟨earlier, batch, later, outcomes, reached, left, rfl, hlength, hearlier, hleft⟩ :=
          ih hrest
        refine ⟨first :: earlier, batch, later, outcome :: outcomes, reached, left, rfl,
          congrArg Nat.succ hlength, ?_, hleft⟩
        rw [applyAll_cons_of_ok happly, hearlier]
        rfl

theorem owner_encoding_applyAll (b : Buffer) (caller : ThreadId) (batches : List Batch) :
    (b.applyAll caller batches).1.owner = b.owner ∧
      (b.applyAll caller batches).1.encoding = b.encoding := by
  induction batches generalizing b with
  | nil => exact ⟨rfl, rfl⟩
  | cons batch rest ih =>
      rcases happly : b.apply caller batch with ⟨left, e | outcome⟩
      · rw [applyAll_cons_of_error happly]
        exact (applying_of_apply happly).owner_encoding
      · obtain ⟨howner, hencoding⟩ := (applying_of_apply happly).owner_encoding
        rw [applyAll_cons_of_ok happly, ← howner, ← hencoding]
        exact ih left

/-- **A refusal leaves what the batches before it have made, and nothing but an earlier part of its
own batch.** When batches are refused, the first that is refused itself finds what all those before
it have left, and those behind it have no effect, whatever they are. It changes nothing, unless it
is out of order: then the changes before the offending one are kept, and the version is not moved.
A batch that is dropped as stale changes nothing either, and whatever happens, the buffer keeps its
owner and its encoding. -/
theorem refusal_leaves_batches_before_it (b : Buffer) (caller : ThreadId) (batches : List Batch) :
    (∀ e, (b.applyAll caller batches).2 = .error e →
      ∃ earlier batch later outcomes reached left, batches = earlier ++ batch :: later ∧
        outcomes.length = earlier.length ∧ b.applyAll caller earlier = (reached, .ok outcomes) ∧
        reached.apply caller batch = (left, .error e) ∧
        (∀ others, b.applyAll caller (earlier ++ batch :: others) = (left, .error e)) ∧
        reached.LeavesBehind batch left e ∧ (e.isPartial = false → left = reached)) ∧
    (∀ earlier batch outcomes reached version start,
      b.applyAll caller earlier = (reached, .ok outcomes) →
      (reached.apply caller batch).2 = .ok (.stale version start) →
      b.applyAll caller (earlier ++ [batch]) =
        (reached, .ok (outcomes ++ [.stale version start]))) ∧
    (b.applyAll caller batches).1.owner = b.owner ∧
    (b.applyAll caller batches).1.encoding = b.encoding := by
  refine ⟨?_, ?_, b.owner_encoding_applyAll caller batches⟩
  · intro e refused
    obtain ⟨earlier, batch, later, outcomes, reached, left, hbatches, hlength, hearlier, hleft⟩ :=
      exists_refused_of_applyAll refused
    have hleaves := (applying_of_apply hleft).leavesBehind
    refine ⟨earlier, batch, later, outcomes, reached, left, hbatches, hlength, hearlier, hleft, ?_,
      hleaves, hleaves.eq_of_whole⟩
    intro others
    rw [applyAll_append hearlier, applyAll_cons_of_error hleft]
    rfl
  · intro earlier batch outcomes reached version start hearlier hstale
    have happly : reached.apply caller batch = (reached, .ok (.stale version start)) := by
      have happlying := reached.applying_apply caller batch
      rw [hstale] at happlying
      exact Prod.ext (happlying.unchanged (by rintro _ ⟨⟩; rfl) nofun) hstale
    rw [applyAll_append hearlier, applyAll_cons_of_ok happly]
    rfl

/-- A batch is applied and another one dropped. The third replaces the whole text between two
insertions and is refused at one more, which starts behind the second of them. A fourth batch would
fit what is left. -/
theorem refusal_leaves_insertion_behind :
    let b : Buffer := ⟨['a', 'b', 'c'], 1, ⟨0⟩, .utf16⟩
    let earlier : List Batch := [⟨1, 2, [.insert ⟨0, 0⟩ ['x']]⟩, ⟨1, 7, []⟩]
    let refused : Batch := ⟨0, 9, [.insert ⟨0, 2⟩ ['Y'], .whole ['p', 'q', 'r'],
      .insert ⟨0, 1⟩ ['Z'], .insert ⟨0, 2⟩ ['!'], .whole []]⟩
    let left : Buffer := ⟨['p', 'Z', 'q', 'r'], 2, ⟨0⟩, .utf16⟩
    b.applyAll b.owner (earlier ++ [refused, ⟨2, 3, []⟩]) = (left, .error (.outOfOrder 1 2)) ∧
      b.applyAll b.owner earlier =
        (⟨['x', 'a', 'b', 'c'], 2, ⟨0⟩, .utf16⟩, .ok [.applied 2, .stale 2 1]) ∧
      ∃ (batch : Batch) (reached : Buffer),
        reached.apply b.owner batch = (left, .error (.outOfOrder 1 2)) ∧
        reached.LeavesBehind batch left (.outOfOrder 1 2) := by
  intro b earlier refused left
  have hanswer : b.applyAll b.owner (earlier ++ [refused, ⟨2, 3, []⟩]) =
      (left, .error (.outOfOrder 1 2)) := by decide +kernel
  have hfirst : b.applyAll b.owner [⟨1, 2, [.insert ⟨0, 0⟩ ['x']]⟩] =
      (⟨['x', 'a', 'b', 'c'], 2, ⟨0⟩, .utf16⟩, .ok [.applied 2]) := rfl
  obtain ⟨hrefused, hstale, -, -⟩ :=
    refusal_leaves_batches_before_it b b.owner (earlier ++ [refused, ⟨2, 3, []⟩])
  obtain ⟨_, batch, later, _, reached, left', hbatches, -, -, happly, hothers, hleaves, -⟩ :=
    hrefused _ (congrArg Prod.snd hanswer)
  have hleft : left' = left := by
    have hlater := hothers later
    rw [← hbatches, hanswer] at hlater
    exact (congrArg Prod.fst hlater).symm
  subst hleft
  exact ⟨hanswer, hstale _ ⟨1, 7, []⟩ _ _ 2 1 hfirst rfl, batch, reached, happly, hleaves⟩

end Buffer

end CodeInsight

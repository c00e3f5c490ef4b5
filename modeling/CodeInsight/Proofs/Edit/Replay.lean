/-
# Replaying applied batches

What applying a list of batches makes of a text is what the batches reported as
applied make of it, one after the other, unless the last one was refused for the
order of its changes and has left some of them behind.

A batch that does nothing but replace the whole text forgets what was there before.
Once such a batch is applied, replaying from any other text comes to the same.
-/

import CodeInsight.Proofs.Edit.Progress

namespace CodeInsight

/-- Whether a batch sends the whole text and nothing else. -/
def Batch.isResync (batch : Batch) : Bool :=
  !batch.changes.isEmpty && batch.changes.all Change.isWhole

/-- The text that the changes of a batch make of another one. -/
def Batch.replay (encoding : ColumnEncoding) (text : List Char) (batch : Batch) : List Char :=
  (Buffer.applyChanges (.ofText text encoding) none text batch.changes).1

namespace Buffer

variable {b left : Buffer} {caller : ThreadId} {batch : Batch} {batches : List Batch}
  {outcome : BatchOutcome}

/-- The batches among these that are reported as applied. -/
def appliedBatches (b : Buffer) (caller : ThreadId) (batches : List Batch) : List Batch :=
  (((b.progress caller batches).outcomes.zip batches).filter (·.1.isApplied)).map (·.2)

theorem appliedBatches_cons_of_ok {rest : List Batch}
    (applied : b.apply caller batch = (left, .ok outcome)) :
    b.appliedBatches caller (batch :: rest) =
      (if outcome.isApplied then [batch] else []) ++ left.appliedBatches caller rest := by
  rw [appliedBatches, progress_cons_of_ok applied, Progress.after, List.zip_cons_cons,
    List.filter_cons]
  cases outcome.isApplied <;> rfl

theorem appliedBatches_cons_of_error {e : EditError} {rest : List Batch}
    (refused : b.apply caller batch = (left, .error e)) :
    b.appliedBatches caller (batch :: rest) = [] := by
  rw [appliedBatches, progress_cons_of_error refused]
  rfl

theorem appliedBatches_nil (b : Buffer) (caller : ThreadId) : b.appliedBatches caller [] = [] :=
  rfl

/-! ## One batch -/

/-- Changes that replace the whole text leave the text of the last of them. -/
theorem applyChanges_of_whole {table : LineTable} {bound : Option Nat} {text : List Char}
    {changes : List Change} (whole : changes.all Change.isWhole = true) :
    applyChanges table bound text changes =
      (changes.foldl (fun _ change => change.text) text, none) := by
  induction changes generalizing text with
  | nil => rfl
  | cons change changes ih =>
      obtain ⟨hfirst, hrest⟩ := Bool.and_eq_true_iff.mp whole
      cases change with
      | whole replacement => exact ih hrest
      | replace span inserted => cases hfirst

/-- A batch that sends the whole text forgets the text before it. -/
theorem replay_of_isResync (resync : batch.isResync = true) (encoding : ColumnEncoding)
    (text other : List Char) : batch.replay encoding text = batch.replay encoding other := by
  obtain ⟨hsome, hwhole⟩ := Bool.and_eq_true_iff.mp resync
  rw [Batch.replay, Batch.replay, applyChanges_of_whole hwhole, applyChanges_of_whole hwhole]
  cases hchanges : batch.changes with
  | nil => simp [hchanges] at hsome
  | cons change changes => rfl

theorem Applying.encoding {answer : Except EditError BatchOutcome}
    (applying : b.Applying caller batch left answer) : left.encoding = b.encoding := by
  cases applying <;> rfl

/-- What a batch that is not refused makes of the text. -/
theorem Applying.text (applying : b.Applying caller batch left (.ok outcome)) :
    left.text = if outcome.isApplied then batch.replay b.encoding b.text else b.text := by
  cases applying with
  | stale => rfl
  | applied own admitted changes =>
      simp only [BatchOutcome.isApplied, if_true, Batch.replay]
      exact (congrArg Prod.fst changes).symm

/-! ## Batches in order -/

theorem encoding_progress (b : Buffer) (caller : ThreadId) (batches : List Batch) :
    (b.progress caller batches).buffer.encoding = b.encoding := by
  induction batches generalizing b with
  | nil => rfl
  | cons batch rest ih =>
      rcases happly : b.apply caller batch with ⟨left, e | outcome⟩
      · rw [progress_cons_of_error happly]
        exact (applying_of_apply happly).encoding
      · rw [progress_cons_of_ok happly]
        exact (ih left).trans (applying_of_apply happly).encoding

/-- Applying batches is replaying those that are reported as applied. If one of these sends the whole
text, it does not matter which text the replay begins with. -/
theorem text_progress {text : List Char}
    (whole : (b.progress caller batches).isPartial = false)
    (agree : b.text = text ∨ (b.appliedBatches caller batches).any Batch.isResync = true) :
    (b.progress caller batches).buffer.text =
      (b.appliedBatches caller batches).foldl (Batch.replay b.encoding) text := by
  induction batches generalizing b text with
  | nil => simpa [appliedBatches_nil, progress] using agree
  | cons batch rest ih =>
      rcases happly : b.apply caller batch with ⟨left, e | outcome⟩
      · rw [appliedBatches_cons_of_error happly] at agree ⊢
        rw [progress_cons_of_error happly] at whole ⊢
        have hsame : left = b := by
          apply (applying_of_apply happly).unchanged
          · intro outcome houtcome
            cases houtcome
          · intro refusal hrefusal
            cases hrefusal
            exact whole
        simpa [hsame] using agree
      · have happlying := applying_of_apply happly
        rw [appliedBatches_cons_of_ok happly] at agree ⊢
        rw [progress_cons_of_ok happly] at whole ⊢
        rw [List.foldl_append, ← happlying.encoding]
        refine ih whole ?_
        rw [happlying.text, happlying.encoding]
        rcases agree with rfl | hresync
        · left
          cases outcome.isApplied <;> rfl
        · rw [List.any_append, Bool.or_eq_true] at hresync
          rcases hresync with hfirst | hrest
          · left
            cases happlied : outcome.isApplied with
            | false => simp [happlied] at hfirst
            | true =>
                have hresync : batch.isResync = true := by simpa [happlied] using hfirst
                exact replay_of_isResync hresync _ _ _
          · exact .inr hrest

end Buffer

end CodeInsight

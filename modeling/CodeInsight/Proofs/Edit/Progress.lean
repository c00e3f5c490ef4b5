/-
# Progress through batches

Batches are applied in order up to the first that is refused. How far that goes
is recorded here whole: the buffer that is left, the outcomes of the batches
before the refusal, and the refusal. The answer to the host leaves the outcomes
out when there is a refusal, although they decide what has become of the text.
-/

import CodeInsight.Proofs.Edit.Versions

namespace CodeInsight

namespace Buffer

/-- How far batches were applied. -/
structure Progress where
  buffer : Buffer
  /-- The outcomes of the batches before the one that was refused. -/
  outcomes : List BatchOutcome
  refusal? : Option EditError

namespace Progress

/-- What the host is answered. -/
def answer (p : Progress) : Except EditError (List BatchOutcome) :=
  match p.refusal? with
  | none => .ok p.outcomes
  | some e => .error e

/-- Whether some batch was applied. -/
def hasApplied (p : Progress) : Bool := p.outcomes.any BatchOutcome.isApplied

/-- Whether a refused batch has left some of its changes behind. -/
def isPartial (p : Progress) : Bool := p.refusal?.any EditError.isPartial

/-- The same progress with one more batch in front, which had the outcome `outcome`. -/
def after (outcome : BatchOutcome) (p : Progress) : Progress :=
  { p with outcomes := outcome :: p.outcomes }

end Progress

/-- Applies batches in order up to the first that is refused. -/
def progress (b : Buffer) (caller : ThreadId) : List Batch → Progress
  | [] => ⟨b, [], none⟩
  | batch :: rest =>
    match b.apply caller batch with
    | (left, .error e) => ⟨left, [], some e⟩
    | (left, .ok outcome) => (left.progress caller rest).after outcome

variable {b left : Buffer} {caller : ThreadId} {batch : Batch}

theorem progress_cons_of_ok {outcome : BatchOutcome} {rest : List Batch}
    (applied : b.apply caller batch = (left, .ok outcome)) :
    b.progress caller (batch :: rest) = (left.progress caller rest).after outcome := by
  rw [progress, applied]

theorem progress_cons_of_error {e : EditError} {rest : List Batch}
    (refused : b.apply caller batch = (left, .error e)) :
    b.progress caller (batch :: rest) = ⟨left, [], some e⟩ := by
  rw [progress, refused]

/-- Applying batches answers with their progress. -/
theorem applyAll_eq_progress (b : Buffer) (caller : ThreadId) (batches : List Batch) :
    b.applyAll caller batches =
      ((b.progress caller batches).buffer, (b.progress caller batches).answer) := by
  induction batches generalizing b with
  | nil => rfl
  | cons batch rest ih =>
      rcases happly : b.apply caller batch with ⟨left, e | outcome⟩
      · rw [applyAll_cons_of_error happly, progress_cons_of_error happly]
        rfl
      · rw [applyAll_cons_of_ok happly, progress_cons_of_ok happly, ih]
        cases hrefusal : (left.progress caller rest).refusal? <;>
          simp [Progress.after, Progress.answer, hrefusal, Except.map]

/-- A batch that is neither applied nor refused for the order of its changes changes nothing. -/
theorem Applying.unchanged {answer : Except EditError BatchOutcome}
    (applying : b.Applying caller batch left answer)
    (dropped : ∀ outcome, answer = .ok outcome → outcome.isApplied = false)
    (whole : ∀ e, answer = .error e → e.isPartial = false) : left = b := by
  cases applying with
  | outOfOrder own admitted changes => exact absurd (whole _ rfl) (by simp [EditError.isPartial])
  | applied own admitted changes => exact absurd (dropped _ rfl) (by simp [BatchOutcome.isApplied])
  | _ => rfl

/-- Only batches that are applied, and one that is refused for the order of its changes, leave
anything else than what they found. -/
theorem progress_unchanged {batches : List Batch}
    (dropped : (b.progress caller batches).hasApplied = false)
    (whole : (b.progress caller batches).isPartial = false) :
    (b.progress caller batches).buffer = b := by
  induction batches generalizing b with
  | nil => rfl
  | cons batch rest ih =>
      rcases happly : b.apply caller batch with ⟨left, e | outcome⟩
      · rw [progress_cons_of_error happly] at whole ⊢
        refine (applying_of_apply happly).unchanged nofun ?_
        intro e' he'
        cases he'
        exact whole
      · rw [progress_cons_of_ok happly] at dropped whole ⊢
        obtain ⟨hfirst, hrest⟩ := Bool.or_eq_false_iff.mp dropped
        have hleft : left = b := by
          refine (applying_of_apply happly).unchanged ?_ nofun
          intro outcome' houtcome
          cases houtcome
          exact hfirst
        subst hleft
        exact ih hrest whole

/-- At a baseline, batches of spans never move the version back. -/
theorem version_le_progress {batches : List Batch} (baseline : b.hasBaseline = true)
    (spans : ∀ batch ∈ batches, batch.hasWhole = false) :
    b.version ≤ (b.progress caller batches).buffer.version := by
  induction batches generalizing b with
  | nil => exact Int32.le_refl _
  | cons batch rest ih =>
      obtain ⟨hspans, hrest⟩ := List.forall_mem_cons.mp spans
      rcases happly : b.apply caller batch with ⟨left, e | outcome⟩
      · rw [progress_cons_of_error happly]
        exact (applying_of_apply happly).version_le hspans baseline
      · have hleft := (applying_of_apply happly).version_le hspans baseline
        rw [progress_cons_of_ok happly]
        exact Int32.le_trans hleft (ih (hasBaseline_of_le baseline hleft) hrest)

/-- At a baseline, batches of spans move the version forward as soon as one of them is applied. -/
theorem version_lt_progress {batches : List Batch} (baseline : b.hasBaseline = true)
    (spans : ∀ batch ∈ batches, batch.hasWhole = false)
    (applied : (b.progress caller batches).hasApplied = true) :
    b.version < (b.progress caller batches).buffer.version := by
  induction batches generalizing b with
  | nil => cases applied
  | cons batch rest ih =>
      obtain ⟨hspans, hrest⟩ := List.forall_mem_cons.mp spans
      rcases happly : b.apply caller batch with ⟨left, e | outcome⟩
      · rw [progress_cons_of_error happly] at applied
        cases applied
      · have happlying := applying_of_apply happly
        have hleft := happlying.version_le hspans baseline
        have hbaseline := hasBaseline_of_le baseline hleft
        rw [progress_cons_of_ok happly] at applied ⊢
        rcases (Bool.or_eq_true _ _).mp applied with hfirst | hlater
        · exact Int32.lt_of_lt_of_le (happlying.version_lt hspans baseline hfirst)
            (version_le_progress hbaseline hrest)
        · exact Int32.lt_of_le_of_lt hleft (ih hbaseline hrest hlater)

end Buffer

end CodeInsight

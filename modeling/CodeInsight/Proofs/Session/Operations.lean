/-
# Operations on open documents

A document moves by the operations of the host, applying and resetting, and by
what its passes do in the background. An operation that schedules a pass takes the
lock for that, and so does not happen while a pass is publishing.

Each step either hands the text it leaves to the scheduler, once, or hands over
nothing (`step?_requests`). In the second case it has left the text alone, unless
it was refused for the order of its changes (`step?_buffer`).
-/

import CodeInsight.Proofs.Edit.Progress
import CodeInsight.Proofs.Reanalysis.Passes
import CodeInsight.Session.OpenDocument

namespace CodeInsight

namespace OpenDocument

variable {σ : Type} {d after : OpenDocument σ}

/-! ## Operations by themselves -/

@[simp]
theorem request_scheduleAnalysis (d : OpenDocument σ) : d.scheduleAnalysis.request = d.request :=
  rfl

@[simp]
theorem requests_scheduleAnalysis (d : OpenDocument σ) :
    d.scheduleAnalysis.scheduler.requests = d.scheduler.requests ++ [d.request] :=
  Scheduler.requests_schedule d.scheduler d.request

/-- Opening is never refused, since the thread that opens a document owns it. -/
theorem create_eq (caller : ThreadId) (uri : DocumentUri) (version : Version) (text : List Char)
    (encoding : ColumnEncoding) (scheduler : Scheduler σ) :
    create caller uri version text encoding scheduler =
      .ok (scheduleAnalysis ⟨uri, ⟨text, version, caller, encoding⟩, scheduler, 0⟩) := by
  simp [create, Buffer.reset, Buffer.checkCaller, Buffer.create, bind, Except.bind, pure,
    Except.pure]

/-- Applying batches when those before them had the outcomes `done`: the buffer makes progress, and
its text is analysed if some batch was applied and none was applied in part. -/
theorem applyAfter_eq (d : OpenDocument σ) (caller : ThreadId) (done : List BatchOutcome)
    (batches : List Batch) :
    d.applyAfter caller done batches =
      let p := d.buffer.progress caller batches
      let changed : OpenDocument σ := { d with buffer := p.buffer }
      (if (done.any BatchOutcome.isApplied || p.hasApplied) && !p.isPartial then
          changed.scheduleAnalysis
        else changed,
        ({ p with outcomes := done ++ p.outcomes } : Buffer.Progress).answer) := by
  induction batches generalizing d done with
  | nil => simp [applyAfter, Buffer.progress, Buffer.Progress.hasApplied,
      Buffer.Progress.isPartial, Buffer.Progress.answer]
  | cons batch rest ih =>
      rcases happly : d.buffer.apply caller batch with ⟨left, e | outcome⟩
      · rw [Buffer.progress_cons_of_error happly, applyAfter, happly]
        simp [Buffer.Progress.hasApplied, Buffer.Progress.isPartial, Buffer.Progress.answer]
      · rw [Buffer.progress_cons_of_ok happly, applyAfter, happly]
        simp only [ih]
        simp [Buffer.Progress.hasApplied, Buffer.Progress.isPartial, Buffer.Progress.answer,
          Buffer.Progress.after, Bool.or_assoc]

/-- Applying batches moves the buffer as far as they are accepted, and its text is analysed if some
batch was applied and none was applied in part. -/
theorem apply_eq (d : OpenDocument σ) (caller : ThreadId) (batches : List Batch) :
    d.apply caller batches =
      let p := d.buffer.progress caller batches
      let changed : OpenDocument σ := { d with buffer := p.buffer }
      (if p.hasApplied && !p.isPartial then changed.scheduleAnalysis else changed, p.answer) :=
  d.applyAfter_eq caller [] batches

theorem buffer_apply (d : OpenDocument σ) (caller : ThreadId) (batches : List Batch) :
    (d.apply caller batches).1.buffer = (d.buffer.progress caller batches).buffer := by
  rw [apply_eq]
  dsimp only
  split <;> rfl

theorem uri_apply (d : OpenDocument σ) (caller : ThreadId) (batches : List Batch) :
    (d.apply caller batches).1.uri = d.uri := by
  rw [apply_eq]
  dsimp only
  split <;> rfl

theorem requests_apply (d : OpenDocument σ) (caller : ThreadId) (batches : List Batch) :
    (d.apply caller batches).1.scheduler.requests = d.scheduler.requests ++
      if (d.buffer.progress caller batches).hasApplied &&
          !(d.buffer.progress caller batches).isPartial then
        [(d.apply caller batches).1.request]
      else [] := by
  rw [apply_eq]
  dsimp only
  split
  · exact requests_scheduleAnalysis _
  · exact (List.append_nil _).symm

theorem reset_eq (d : OpenDocument σ) (caller : ThreadId) (version : Version) (text : List Char) :
    d.reset caller version text =
      if caller = d.buffer.owner then
        (scheduleAnalysis { d with buffer := { d.buffer with text, version } }, .ok ())
      else (d, .error .foreignThread) := by
  by_cases hown : caller = d.buffer.owner <;>
    simp [reset, Buffer.reset, Buffer.checkCaller, hown, bind, Except.bind, pure, Except.pure]

/-! ## Steps -/

/-- What can happen to an open document without interruption. -/
inductive Event (σ : Type) where
  | apply (caller : ThreadId) (batches : List Batch)
  | reset (caller : ThreadId) (version : Version) (text : List Char)
  /-- Something happens to the scheduler that does not come from an operation of the host. -/
  | background (event : Scheduler.Event σ)

/-- What an operation leaves, unless it schedules and has to wait for the lock. -/
def unlessLocked (d after : OpenDocument σ) : Option (OpenDocument σ) :=
  if d.scheduler.isLocked && after.scheduler.passes.size ≠ d.scheduler.passes.size then none
  else some after

/-- What an event makes of a document. In the background nothing is scheduled. -/
def step? (d : OpenDocument σ) : Event σ → Option (OpenDocument σ)
  | .apply caller batches => d.unlessLocked (d.apply caller batches).1
  | .reset caller version text => d.unlessLocked (d.reset caller version text).1
  | .background event =>
    if event.isSchedule then none
    else (d.scheduler.step? event).map fun scheduler => { d with scheduler }

theorem eq_of_unlessLocked {left : OpenDocument σ} (happens : d.unlessLocked left = some after) :
    after = left := by
  obtain ⟨-, happens⟩ := Option.ite_none_left_eq_some.mp happens
  exact (Option.some.inj happens).symm

/-- In the background the scheduler alone makes a step, and one that schedules nothing. -/
theorem step?_background {event : Scheduler.Event σ}
    (happens : d.step? (.background event) = some after) :
    ∃ scheduler, d.scheduler.Step event scheduler ∧ event.isSchedule = false ∧
      after = { d with scheduler } := by
  obtain ⟨hquiet, happens⟩ := Option.ite_none_left_eq_some.mp happens
  obtain ⟨scheduler, hstep, rfl⟩ := Option.map_eq_some_iff.mp happens
  exact ⟨scheduler, Scheduler.step?_eq_some_iff.mp hstep, eq_false_of_ne_true hquiet, rfl⟩

/-- The refusal that an operation was answered with at a moment, if there was one. -/
def refusal? (m : Moment (OpenDocument σ) (Event σ)) : Option EditError :=
  match m.event with
  | .apply caller batches =>
    match (m.before.apply caller batches).2 with
    | .error e => some e
    | .ok _ => none
  | .reset caller version text =>
    match (m.before.reset caller version text).2 with
    | .error e => some e
    | .ok () => none
  | .background _ => none

@[simp]
theorem refusal?_apply (d after : OpenDocument σ) (caller : ThreadId) (batches : List Batch) :
    refusal? ⟨d, .apply caller batches, after⟩ = (d.buffer.progress caller batches).refusal? := by
  simp only [refusal?, apply_eq, Buffer.Progress.answer]
  cases (d.buffer.progress caller batches).refusal? <;> rfl

/-- Whether a moment calls for an analysis: some batch was applied and no other was applied in part,
or the whole text was replaced. -/
def callsForAnalysis (m : Moment (OpenDocument σ) (Event σ)) : Bool :=
  match m.event with
  | .apply caller batches =>
    (m.before.buffer.progress caller batches).hasApplied &&
      !(refusal? m).any EditError.isPartial
  | .reset .. => (refusal? m).isNone
  | .background _ => false

theorem step?_uri {event : Event σ} (happens : d.step? event = some after) :
    after.uri = d.uri := by
  cases event with
  | apply caller batches =>
      rw [eq_of_unlessLocked happens]
      exact d.uri_apply caller batches
  | reset caller version text =>
      rw [eq_of_unlessLocked happens, reset_eq]
      split <;> rfl
  | background event =>
      obtain ⟨scheduler, -, -, rfl⟩ := step?_background happens
      rfl

/-- A step hands over the text it leaves if it calls for an analysis, and otherwise nothing. -/
theorem step?_requests {event : Event σ} (happens : d.step? event = some after) :
    after.scheduler.requests = d.scheduler.requests ++
      if callsForAnalysis ⟨d, event, after⟩ then [after.request] else [] := by
  cases event with
  | apply caller batches =>
      rw [eq_of_unlessLocked happens, requests_apply]
      simp only [callsForAnalysis, refusal?_apply]
      rfl
  | reset caller version text =>
      rw [eq_of_unlessLocked happens]
      simp only [callsForAnalysis, refusal?, reset_eq]
      by_cases hown : caller = d.buffer.owner
      · simp [hown]
      · simp [hown]
  | background event =>
      obtain ⟨scheduler, hstep, hquiet, rfl⟩ := step?_background happens
      rw [hstep.requests hquiet]
      exact (List.append_nil _).symm

/-- A step that calls for no analysis leaves the text alone, unless it is refused for the order of
its changes. -/
theorem step?_buffer {event : Event σ} (happens : d.step? event = some after)
    (quiet : callsForAnalysis ⟨d, event, after⟩ = false)
    (whole : (refusal? ⟨d, event, after⟩).any EditError.isPartial = false) :
    after.buffer = d.buffer := by
  cases event with
  | apply caller batches =>
      rw [eq_of_unlessLocked happens, buffer_apply]
      rw [refusal?_apply] at whole
      refine Buffer.progress_unchanged ?_ whole
      simpa [callsForAnalysis, whole] using quiet
  | reset caller version text =>
      rw [eq_of_unlessLocked happens, reset_eq]
      by_cases hown : caller = d.buffer.owner
      · simp [callsForAnalysis, refusal?, reset_eq, hown] at quiet
      · rw [if_neg hown]
  | background event =>
      obtain ⟨scheduler, -, -, rfl⟩ := step?_background happens
      rfl

end OpenDocument

end CodeInsight

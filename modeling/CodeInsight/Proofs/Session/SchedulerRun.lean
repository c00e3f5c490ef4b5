/-
# The scheduler of an open document

Every run of an open document contains a run of its scheduler: what happens in the
background happens to the scheduler as it is, an operation that calls for an
analysis schedules the text it leaves, and any other operation leaves the scheduler
alone. So whatever holds in all runs of a scheduler holds for that of a document.

As passes are scheduled in no other way, the pass that the document remembers as
its last one is that of the scheduler's current generation.
-/

import CodeInsight.Proofs.Session.Operations

namespace CodeInsight

namespace OpenDocument

variable {σ : Type} {opened d after : OpenDocument σ} {event : Event σ}
  {log : List (Moment (OpenDocument σ) (Event σ))}

/-- What happens to the scheduler at a moment of its document, if anything does. -/
def schedulerEvent? (m : Moment (OpenDocument σ) (Event σ)) : Option (Scheduler.Event σ) :=
  match m.event with
  | .background event => some event
  | _ => if callsForAnalysis m then some (.schedule m.after.request) else none

/-- The log of the scheduler in a run of its document. -/
def schedulerLog (log : List (Moment (OpenDocument σ) (Event σ))) :
    List (Moment (Scheduler σ) (Scheduler.Event σ)) :=
  log.filterMap fun m => (schedulerEvent? m).map fun e => ⟨m.before.scheduler, e, m.after.scheduler⟩

theorem schedulerLog_append (log later : List (Moment (OpenDocument σ) (Event σ))) :
    schedulerLog (log ++ later) = schedulerLog log ++ schedulerLog later :=
  List.filterMap_append

/-! ## Single steps -/

/-- An operation that schedules happens only while the lock is free. -/
theorem free_of_unlessLocked {buffer : Buffer}
    (happens : d.unlessLocked (scheduleAnalysis { d with buffer }) = some after) :
    d.scheduler.isLocked = false := by
  obtain ⟨hfree, -⟩ := Option.ite_none_left_eq_some.mp happens
  have hsize : (scheduleAnalysis { d with buffer }).scheduler.passes.size =
      d.scheduler.passes.size + 1 := by
    simp [scheduleAnalysis, Scheduler.passes_schedule]
  simpa [hsize] using hfree

/-- What a step does to the buffer and to the scheduler of a document. -/
theorem step?_cases (happens : d.step? event = some after) :
    (∃ buffer, d.scheduler.isLocked = false ∧ after = scheduleAnalysis { d with buffer } ∧
        schedulerEvent? ⟨d, event, after⟩ = some (.schedule after.request)) ∨
      (∃ buffer, after = { d with buffer } ∧ schedulerEvent? ⟨d, event, after⟩ = none) ∨
      ∃ e scheduler, d.scheduler.Step e scheduler ∧ e.isSchedule = false ∧
        after = { d with scheduler } ∧ schedulerEvent? ⟨d, event, after⟩ = some e := by
  cases event with
  | apply caller batches =>
      have hcalls : callsForAnalysis ⟨d, .apply caller batches, after⟩ =
          ((d.buffer.progress caller batches).hasApplied &&
            !(d.buffer.progress caller batches).isPartial) := by
        simp only [callsForAnalysis, refusal?_apply]
        rfl
      rw [step?, apply_eq] at happens
      dsimp only at happens
      rw [← hcalls] at happens
      cases hscheduled : callsForAnalysis ⟨d, .apply caller batches, after⟩ with
      | true =>
          rw [hscheduled, if_pos rfl] at happens
          exact .inl ⟨_, free_of_unlessLocked happens, eq_of_unlessLocked happens,
            if_pos hscheduled⟩
      | false =>
          rw [hscheduled, if_neg Bool.false_ne_true] at happens
          exact .inr (.inl ⟨_, eq_of_unlessLocked happens,
            if_neg (ne_true_of_eq_false hscheduled)⟩)
  | reset caller version text =>
      rw [step?, reset_eq] at happens
      by_cases hown : caller = d.buffer.owner
      · rw [if_pos hown] at happens
        refine .inl ⟨_, free_of_unlessLocked happens, eq_of_unlessLocked happens, if_pos ?_⟩
        simp [callsForAnalysis, refusal?, reset_eq, hown]
      · rw [if_neg hown] at happens
        refine .inr (.inl ⟨d.buffer, eq_of_unlessLocked happens, if_neg ?_⟩)
        simp [callsForAnalysis, refusal?, reset_eq, hown]
  | background e =>
      obtain ⟨scheduler, hstep, hquiet, rfl⟩ := step?_background happens
      exact .inr (.inr ⟨e, scheduler, hstep, hquiet, rfl, rfl⟩)

/-- The scheduler makes the step that a moment of its document tells. -/
theorem step?_scheduler {e : Scheduler.Event σ} (happens : d.step? event = some after)
    (seen : schedulerEvent? ⟨d, event, after⟩ = some e) :
    d.scheduler.step? e = some after.scheduler := by
  rcases step?_cases happens with
    ⟨buffer, hfree, rfl, hseen⟩ | ⟨buffer, -, hseen⟩ | ⟨e', scheduler, hstep, -, rfl, hseen⟩
  · cases hseen.symm.trans seen
    exact Scheduler.step?_eq_some_iff.mpr (.schedule _ hfree)
  · cases hseen.symm.trans seen
  · cases hseen.symm.trans seen
    exact Scheduler.step?_eq_some_iff.mpr hstep

/-- The scheduler stays as it is at a moment that tells nothing of it. -/
theorem step?_scheduler_of_none (happens : d.step? event = some after)
    (unseen : schedulerEvent? ⟨d, event, after⟩ = none) : after.scheduler = d.scheduler := by
  rcases step?_cases happens with
    ⟨buffer, -, rfl, hseen⟩ | ⟨buffer, rfl, -⟩ | ⟨e', scheduler, -, -, rfl, hseen⟩
  · cases hseen.symm.trans unseen
  · rfl
  · cases hseen.symm.trans unseen

/-- The document remembers the current generation, since it alone starts generations. -/
theorem step?_lastPass (happens : d.step? event = some after)
    (current : d.lastPass = d.scheduler.generation) :
    after.lastPass = after.scheduler.generation := by
  rcases step?_cases happens with
    ⟨buffer, -, rfl, -⟩ | ⟨buffer, rfl, -⟩ | ⟨e', scheduler, hstep, hquiet, rfl, -⟩
  · rfl
  · exact current
  · rw [hstep.generation, hquiet]
    exact current.trans (UInt64.add_zero _).symm

/-! ## Runs -/

theorem schedulerRun (run : Run step? opened log d) :
    Run Scheduler.step? opened.scheduler (schedulerLog log) d.scheduler :=
  run.project OpenDocument.scheduler schedulerEvent? (fun _ _ _ _ => step?_scheduler)
    (fun _ _ _ => step?_scheduler_of_none)

theorem lastPass_of_run (run : Run step? opened log d)
    (current : opened.lastPass = opened.scheduler.generation) :
    d.lastPass = d.scheduler.generation :=
  (run.invariant (P := fun d => d.lastPass = d.scheduler.generation)
    (fun _ _ _ => step?_lastPass) current).1

/-- The log of a scheduler that is new when its document is opened, from the opening on. -/
def schedulerLogFromOpening (debounce : Nat) (opened : OpenDocument σ)
    (log : List (Moment (OpenDocument σ) (Event σ))) :
    List (Moment (Scheduler σ) (Scheduler.Event σ)) :=
  ⟨.create debounce, .schedule opened.request, opened.scheduler⟩ :: schedulerLog log

/-- From its creation on, the scheduler of a document makes a run of its own. -/
theorem schedulerRun_of_create {caller : ThreadId} {uri : DocumentUri} {version : Version}
    {text : List Char} {encoding : ColumnEncoding} {debounce : Nat}
    (opening : create caller uri version text encoding (.create debounce) = .ok opened)
    (run : Run step? opened log d) :
    Run Scheduler.step? (.create debounce) (schedulerLogFromOpening debounce opened log)
      d.scheduler := by
  rw [create_eq] at opening
  cases opening
  have hscheduled : (Scheduler.create debounce : Scheduler σ).step?
      (.schedule ⟨uri, version, text⟩) =
        some ((Scheduler.create debounce).schedule ⟨uri, version, text⟩).1 := rfl
  exact (Run.extend .start hscheduled).append (schedulerRun run)

end OpenDocument

end CodeInsight

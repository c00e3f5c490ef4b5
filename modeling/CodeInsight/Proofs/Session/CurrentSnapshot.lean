/-
# The current snapshot

A document waits for the pass it scheduled last, and what it is answered is the
analysis of the text it holds. Versions play no part in this: a reset may lower
them below that of a snapshot published before.

While the document waits it cannot be edited, but its passes go on, and the wait is
over at one moment and reads at another.
-/

import CodeInsight.Proofs.Reanalysis.Waiting
import CodeInsight.Proofs.Session.LastRequest
import CodeInsight.Proofs.Session.SchedulerRun

namespace CodeInsight

namespace OpenDocument

variable {σ : Type} {opened d e f : OpenDocument σ}
  {log later waited read : List (Moment (OpenDocument σ) (Event σ))}

/-- Whether an event is no operation of the host on the document. -/
def Event.isBackground : Event σ → Bool
  | background _ => true
  | _ => false

/-- In the background no requests are handed over. -/
theorem requests_of_background (run : Run step? d later e)
    (background : ∀ m ∈ later, m.event.isBackground = true) :
    e.scheduler.requests = d.scheduler.requests := by
  induction run with
  | start => rfl
  | @extend later e f event prior happens ih =>
      obtain ⟨hprior, hlast⟩ := List.forall_mem_append.mp background
      cases event with
      | background event =>
          obtain ⟨scheduler, hstep, hquiet, rfl⟩ := step?_background happens
          exact (hstep.requests hquiet).trans (ih hprior)
      | apply | reset => exact absurd (List.forall_mem_singleton.mp hlast) Bool.false_ne_true

variable {caller : ThreadId} {uri : DocumentUri} {version : Version} {text : List Char}
  {encoding : ColumnEncoding} {debounce : Nat} {analyze : Request → σ} {found : Option σ}

theorem getLast?_requests_of_opening {scheduler : Scheduler σ}
    (opening : create caller uri version text encoding scheduler = .ok opened) :
    opened.scheduler.requests.getLast? = some opened.request := by
  rw [create_eq] at opening
  cases opening
  rw [requests_scheduleAnalysis, List.getLast?_concat]
  rfl

theorem lastPass_of_opening {scheduler : Scheduler σ}
    (opening : create caller uri version text encoding scheduler = .ok opened) :
    opened.lastPass = opened.scheduler.generation := by
  rw [create_eq] at opening
  cases opening
  rfl

/-- When the wait for the pass scheduled last is over, the newest snapshot is the analysis of the
last request, as long as no more requests are handed over. -/
theorem latest?_of_waitForCurrent
    (opening : create caller uri version text encoding (.create debounce) = .ok opened)
    (run : Run step? opened log e) (reading : Run step? e read f)
    (background : ∀ m ∈ read, m.event.isBackground = true)
    (follows : Scheduler.AnswersFollow analyze (schedulerLog (log ++ read)))
    (few : e.scheduler.requests.length < 2 ^ 64) (ended : e.waitForCurrent = .over found) :
    f.latest? = e.scheduler.requests.getLast?.map analyze := by
  have hsame := requests_of_background reading background
  have hsize : f.scheduler.passes.size = e.scheduler.passes.size := by
    simpa using congrArg List.length hsame
  have hrun := schedulerRun_of_create opening run
  have hstarted : 0 < e.scheduler.passes.size := by
    rw [Scheduler.size_passes_of_run hrun]
    exact Nat.lt_of_lt_of_le (List.countP_pos_iff.mpr ⟨_, List.mem_cons_self, rfl⟩)
      (Nat.le_add_left _ _)
  have hknown : e.scheduler.generation ≤ e.scheduler.publishedGeneration := by
    rw [← lastPass_of_run run (lastPass_of_opening opening)]
    exact (Scheduler.waitForGeneration_eq_over_iff.mp ended).1
  rw [← hsame]
  refine Scheduler.latest?_of_current hrun (schedulerRun reading) ?_ hstarted hsize ?_ hknown
  · rwa [hsize, ← Scheduler.length_requests]
  · rw [schedulerLog_append] at follows
    exact List.forall_mem_cons.mpr ⟨nofun, follows⟩

/-- **The current snapshot reflects the current text.** A document is opened and then edited and
reset in any way while its passes go on, and no batch has been refused for the order of its changes
since it last scheduled a pass. At this point it waits for its current snapshot. When the wait is
over and has read a snapshot, at the same or a later moment, this is the analysis of the text and
the version that the document had when it began to wait.

Generations are told apart as long as there are fewer than 2 ^ 64 of them. -/
theorem current_snapshot_reflects_text
    (opening : create caller uri version text encoding (.create debounce) = .ok opened)
    (run : Run step? opened log d) (settled : IsSettled log)
    (waiting : Run step? d waited e) (reading : Run step? e read f)
    (background : ∀ m ∈ waited ++ read, m.event.isBackground = true)
    (follows : Scheduler.AnswersFollow analyze (schedulerLog (log ++ waited ++ read)))
    (few : d.scheduler.requests.length < 2 ^ 64) (ended : e.waitForCurrent = .over found) :
    f.latest? = some (analyze ⟨uri, d.buffer.version, d.buffer.text⟩) := by
  obtain ⟨hwaited, hread⟩ := List.forall_mem_append.mp background
  have hrequest : d.request = ⟨uri, d.buffer.version, d.buffer.text⟩ := by
    rw [request, uri_of_run run]
    rw [create_eq] at opening
    cases opening
    rfl
  have hlast : e.scheduler.requests.getLast? = some ⟨uri, d.buffer.version, d.buffer.text⟩ := by
    rw [requests_of_background waiting hwaited, ← hrequest]
    exact getLast?_requests_of_run run (getLast?_requests_of_opening opening) settled
  rw [latest?_of_waitForCurrent opening (run.append waiting) reading hread follows ?_ ended, hlast,
    Option.map_some]
  rwa [requests_of_background waiting hwaited]

/-- A snapshot of version 10 is published when a reset lowers the version to 1. The wait that begins
then is over when the pass of the reset has published, and reads after that pass was cancelled. -/
theorem current_snapshot_after_lowered_version :
    ∃ (opened d e f : OpenDocument Request)
      (log waited read : List (Moment (OpenDocument Request) (Event Request))),
      create ⟨0⟩ "doc" 10 ['o', 'l', 'd'] .utf8 (.create 0) = .ok opened ∧
        Run step? opened log d ∧ IsSettled log ∧ Run step? d waited e ∧ Run step? e read f ∧
        (∀ m ∈ waited ++ read, m.event.isBackground = true) ∧
        Scheduler.AnswersFollow id (schedulerLog (log ++ waited ++ read)) ∧
        d.scheduler.requests.length < 2 ^ 64 ∧
        d.latest? = some ⟨"doc", 10, ['o', 'l', 'd']⟩ ∧
        e.waitForCurrent = .over (some ⟨"doc", 1, ['n', 'e', 'w']⟩) ∧
        f.latest? = some (id ⟨"doc", d.buffer.version, d.buffer.text⟩) := by
  have hplayed : ∃ opened d e f log waited read,
      create ⟨0⟩ "doc" 10 ['o', 'l', 'd'] .utf8 (.create 0 : Scheduler Request) = .ok opened ∧
      Run.play? step? opened
        [.background (.start 0), .background (.answer 0 (some ⟨"doc", 10, ['o', 'l', 'd']⟩)),
          .background (.finish 0), .background (.complete 0),
          .reset ⟨0⟩ 1 ['n', 'e', 'w']] = some (log, d) ∧
      Run.play? step? d
        [.background (.start 1), .background (.answer 1 (some ⟨"doc", 1, ['n', 'e', 'w']⟩)),
          .background (.finish 1), .background (.complete 1)] = some (waited, e) ∧
      Run.play? step? e [.background .cancel] = some (read, f) ∧
      (sinceSchedule log).map refusal? = [] ∧
      ((waited ++ read).map fun m => m.event.isBackground) = [true, true, true, true, true] ∧
      Scheduler.AnswersFollow id (schedulerLog (log ++ waited ++ read)) ∧
      d.scheduler.requests.length = 2 ∧
      d.latest? = some ⟨"doc", 10, ['o', 'l', 'd']⟩ ∧
      e.waitForCurrent = .over (some ⟨"doc", 1, ['n', 'e', 'w']⟩) := by
    refine ⟨_, _, _, _, _, _, _, rfl, rfl, rfl, rfl, rfl, rfl, ?_, rfl, rfl, rfl⟩
    decide
  obtain ⟨opened, d, e, f, log, waited, read, opening, hlog, hwaited, hread, hsince, hbackground,
    follows, hcount, hlatest, hended⟩ := hplayed
  have run := Run.of_play? hlog
  have waiting := Run.of_play? hwaited
  have reading := Run.of_play? hread
  have settled : IsSettled log := by
    rw [List.map_eq_nil_iff] at hsince
    rw [IsSettled, hsince]
    exact List.forall_mem_nil _
  have background : ∀ m ∈ waited ++ read, m.event.isBackground = true := by
    intro m hm
    have hmem := List.mem_map_of_mem (f := fun m => m.event.isBackground) hm
    rw [hbackground] at hmem
    simpa using hmem
  have few : d.scheduler.requests.length < 2 ^ 64 := by rw [hcount]; decide
  exact ⟨opened, d, e, f, log, waited, read, opening, run, settled, waiting, reading, background,
    follows, few, hlatest, hended, current_snapshot_reflects_text opening run settled waiting reading
      background follows few hended⟩

/-- Generations are counted in 64 bits. When the count has just come around, the last pass has the
number zero, and a wait for it is over before anything is published. -/
theorem waitForCurrent_of_come_around
    (opening : create caller uri version text encoding (.create debounce) = .ok opened)
    (run : Run step? opened log d) (around : d.scheduler.requests.length = 2 ^ 64) :
    d.waitForCurrent = .over d.latest? := by
  have hnumbered := Scheduler.numbered_of_run (schedulerRun_of_create opening run)
    (Scheduler.numbered_create debounce)
  have hzero : d.lastPass = 0 := by
    rw [lastPass_of_run run (lastPass_of_opening opening), hnumbered.generation,
      ← Scheduler.length_requests, around]
    rfl
  refine Scheduler.waitForGeneration_eq_over_iff.mpr ⟨?_, rfl⟩
  rw [hzero]
  exact UInt64.le_iff_toNat_le.mpr (Nat.zero_le _)

end OpenDocument

end CodeInsight

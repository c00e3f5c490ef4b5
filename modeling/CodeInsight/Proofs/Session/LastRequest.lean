/-
# The last request

What an open document asked its scheduler to analyse last is the text that it
holds, in every run of operations and whatever its passes do in the meantime. The
one exception is a batch refused for the order of its changes: the text it leaves
belongs to no version, and nothing is scheduled until the host goes on.

The exception is over with the next operation that schedules, for this one hands
over the text as it is then. So only what has happened since matters.
-/

import CodeInsight.Proofs.Session.Operations
import Mathlib.Data.List.DropRight

namespace CodeInsight

namespace OpenDocument

variable {σ : Type} {opened d : OpenDocument σ} {log : List (Moment (OpenDocument σ) (Event σ))}

/-- Whether something is handed to the scheduler at a moment. -/
def schedules (m : Moment (OpenDocument σ) (Event σ)) : Bool :=
  m.before.scheduler.requests.length < m.after.scheduler.requests.length

/-- The moments after the last one that scheduled, or all if there is none. -/
def sinceSchedule (log : List (Moment (OpenDocument σ) (Event σ))) :
    List (Moment (OpenDocument σ) (Event σ)) :=
  log.rtakeWhile (!schedules ·)

/-- No refusal for the order of changes has been answered since something was scheduled. -/
def IsSettled (log : List (Moment (OpenDocument σ) (Event σ))) : Prop :=
  ∀ m ∈ sinceSchedule log, ∀ previous start, refusal? m ≠ some (.outOfOrder previous start)

/-- A moment that schedules nothing keeps matters settled just if it is no such refusal itself. -/
theorem isSettled_concat_of_quiet {m : Moment (OpenDocument σ) (Event σ)}
    (quiet : schedules m = false) :
    IsSettled (log ++ [m]) ↔
      IsSettled log ∧ (refusal? m).any EditError.isPartial = false := by
  have hsince : sinceSchedule (log ++ [m]) = sinceSchedule log ++ [m] :=
    List.rtakeWhile_concat_pos _ _ _ (by simp [quiet])
  have hrefusal : (refusal? m).any EditError.isPartial = false ↔
      ∀ previous start, refusal? m ≠ some (.outOfOrder previous start) := by
    cases refusal? m with
    | none => simp
    | some e => cases e <;> simp [EditError.isPartial]
  rw [IsSettled, hsince, List.forall_mem_append, List.forall_mem_singleton, hrefusal]
  rfl

theorem uri_of_run (run : Run step? opened log d) : d.uri = opened.uri :=
  (run.invariant (P := fun d => d.uri = opened.uri)
    (fun _ _ _ happens huri => (step?_uri happens).trans huri) rfl).1

/-- If a document starts with its text handed over, then what is handed over last stays its text. -/
theorem getLast?_requests_of_run (run : Run step? opened log d)
    (initially : opened.scheduler.requests.getLast? = some opened.request)
    (settled : IsSettled log) : d.scheduler.requests.getLast? = some d.request := by
  induction run with
  | start => exact initially
  | @extend log d after event prior happens ih =>
      have hrequests := step?_requests happens
      cases hcalls : callsForAnalysis ⟨d, event, after⟩ with
      | true =>
          rw [hcalls, if_pos rfl] at hrequests
          rw [hrequests, List.getLast?_concat]
      | false =>
          -- Neither the text nor the last request has moved, and the moment is one of those since.
          rw [hcalls, if_neg Bool.false_ne_true, List.append_nil] at hrequests
          have hquiet : schedules ⟨d, event, after⟩ = false := by
            simp [schedules, hrequests]
          obtain ⟨hsettled, hwhole⟩ := (isSettled_concat_of_quiet hquiet).mp settled
          have hbuffer := step?_buffer happens hcalls hwhole
          have huri := step?_uri happens
          rw [hrequests, ih hsettled, request, request, hbuffer, huri]

/-- **The last scheduled request matches the buffer.** Opening schedules the text that is opened. In
every run after it, an operation schedules one pass, over the text it leaves, if it calls for an
analysis, and otherwise none. As long as no batch is refused for the order of its changes after the
last of these passes, its request is for the text that the document holds. -/
theorem last_request_matches_buffer {caller : ThreadId} {uri : DocumentUri} {version : Version}
    {text : List Char} {encoding : ColumnEncoding} {scheduler : Scheduler σ}
    (opening : create caller uri version text encoding scheduler = .ok opened)
    (run : Run step? opened log d) :
    opened.scheduler.requests = scheduler.requests ++ [⟨uri, version, text⟩] ∧
    (∀ m ∈ log, m.after.scheduler.requests = m.before.scheduler.requests ++
      if callsForAnalysis m then [m.after.request] else []) ∧
    (IsSettled log →
      d.scheduler.requests.getLast? = some ⟨uri, d.buffer.version, d.buffer.text⟩) := by
  rw [create_eq] at opening
  cases opening
  have hopened := requests_scheduleAnalysis
    (⟨uri, ⟨text, version, caller, encoding⟩, scheduler, 0⟩ : OpenDocument σ)
  refine ⟨hopened, fun m hm => step?_requests (run.happens_of_mem hm), ?_⟩
  intro settled
  have huri : d.uri = uri := uri_of_run run
  rw [getLast?_requests_of_run run ?_ settled, request, huri]
  rw [hopened, List.getLast?_concat]
  rfl

/-- A batch is refused after another was applied, one is applied in part, and a reset follows. -/
theorem last_request_after_reset :
    ∃ (opened d : OpenDocument Nat) (log : List (Moment (OpenDocument Nat) (Event Nat))),
      create ⟨0⟩ "doc" 0 ['a'] .utf8 (.create 0) = .ok opened ∧ Run step? opened log d ∧
        IsSettled log ∧
        log.map refusal? =
          [some .foreignThread, some (.missingVersions 1 5), some (.outOfOrder 0 1), none, none,
            none] ∧
        d.scheduler.requests = [⟨"doc", 0, ['a']⟩, ⟨"doc", 1, ['a', 'b']⟩, ⟨"doc", 7, ['z']⟩] ∧
        d.scheduler.requests.getLast? = some ⟨"doc", d.buffer.version, d.buffer.text⟩ := by
  have hplayed : ∃ opened d log,
      create ⟨0⟩ "doc" 0 ['a'] .utf8 (.create 0 : Scheduler Nat) = .ok opened ∧
      Run.play? step? opened
        [.apply ⟨1⟩ [⟨0, 1, []⟩],
          .apply ⟨0⟩ [⟨0, 1, [.replace ⟨⟨0, 1⟩, ⟨0, 1⟩⟩ ['b']]⟩, ⟨5, 6, []⟩],
          .apply ⟨0⟩
            [⟨1, 2, [.replace ⟨⟨0, 0⟩, ⟨0, 0⟩⟩ ['c'], .replace ⟨⟨0, 1⟩, ⟨0, 1⟩⟩ ['d']]⟩],
          .background (.start 1), .reset ⟨0⟩ 7 ['z'], .apply ⟨0⟩ [⟨1, 2, []⟩]] = some (log, d) ∧
      (sinceSchedule log).map refusal? = [none] ∧
      log.map refusal? =
        [some .foreignThread, some (.missingVersions 1 5), some (.outOfOrder 0 1), none, none,
          none] ∧
      d.scheduler.requests =
        [⟨"doc", 0, ['a']⟩, ⟨"doc", 1, ['a', 'b']⟩, ⟨"doc", 7, ['z']⟩] := by
    refine ⟨_, _, _, rfl, rfl, ?_, ?_, ?_⟩ <;> rfl
  obtain ⟨opened, d, log, opening, hplay, hsince, hrefusals, hrequests⟩ := hplayed
  have run := Run.of_play? hplay
  have settled : IsSettled log := by
    intro m hm previous start hrefusal
    have hmem := List.mem_map_of_mem (f := refusal?) hm
    rw [hsince, hrefusal] at hmem
    simp at hmem
  exact ⟨opened, d, log, opening, run, settled, hrefusals, hrequests,
    (last_request_matches_buffer opening run).2.2 settled⟩

end OpenDocument

end CodeInsight

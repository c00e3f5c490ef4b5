/-
# Scheduled texts are replayed texts

A text that is handed over for analysis is what the batches reported as applied make
of the last text that was sent whole. A batch refused for the order of its changes
leaves some of them behind, though, and the document does not remember this: later
batches at the same version are applied on top of them and handed over. The host is
told to send the whole text again. If it has done so after every such refusal, nothing
of a refused batch is ever handed over.
-/

import CodeInsight.Proofs.Edit.Replay
import CodeInsight.Proofs.Session.Operations

namespace CodeInsight

namespace OpenDocument

variable {σ : Type} {opened d after : OpenDocument σ} {event : Event σ}
  {log : List (Moment (OpenDocument σ) (Event σ))} {m : Moment (OpenDocument σ) (Event σ)}

/-- The batches that are reported as applied at a moment. -/
def appliedAt (m : Moment (OpenDocument σ) (Event σ)) : List Batch :=
  match m.event with
  | .apply caller batches => m.before.buffer.appliedBatches caller batches
  | _ => []

/-- The text that a moment makes of another one: a reset replaces it, and batches reported as applied
are applied to it. -/
def replayMoment (encoding : ColumnEncoding) (text : List Char)
    (m : Moment (OpenDocument σ) (Event σ)) : List Char :=
  match m.event with
  | .reset _ _ replacement => if (refusal? m).isNone then replacement else text
  | _ => (appliedAt m).foldl (Batch.replay encoding) text

/-- The text that the moments of a log make of the one it begins with. -/
def replay (encoding : ColumnEncoding) (text : List Char)
    (log : List (Moment (OpenDocument σ) (Event σ))) : List Char :=
  log.foldl (replayMoment encoding) text

/-- Whether the host sends the whole text at a moment, by a reset or by a batch of its own. -/
def sendsWhole (m : Moment (OpenDocument σ) (Event σ)) : Bool :=
  match m.event with
  | .reset .. => (refusal? m).isNone
  | _ => (appliedAt m).any Batch.isResync

/-- After every batch refused for the order of its changes, the host has sent the whole text. -/
def IsResynced : List (Moment (OpenDocument σ) (Event σ)) → Prop
  | [] => True
  | m :: later =>
    ((refusal? m).any EditError.isPartial = true → ∃ n ∈ later, sendsWhole n = true) ∧
      IsResynced later

instance (log : List (Moment (OpenDocument σ) (Event σ))) : Decidable (IsResynced log) :=
  match log with
  | [] => .isTrue trivial
  | _ :: later =>
    have := instDecidableIsResynced later
    inferInstanceAs (Decidable (_ ∧ _))

theorem IsResynced.not_partial (resynced : IsResynced (log ++ [m])) :
    (refusal? m).any EditError.isPartial = false := by
  induction log with
  | nil =>
      refine eq_false_of_ne_true ?_
      intro hpartial
      obtain ⟨n, hn, -⟩ := resynced.1 hpartial
      cases hn
  | cons first log ih => exact ih resynced.2

/-- What has been made good by a moment was made good before it, unless the moment does so itself. -/
theorem IsResynced.of_concat (resynced : IsResynced (log ++ [m])) (quiet : sendsWhole m = false) :
    IsResynced log := by
  induction log with
  | nil => trivial
  | cons first log ih =>
      refine ⟨?_, ih resynced.2⟩
      intro hpartial
      obtain ⟨n, hn, hwhole⟩ := resynced.1 hpartial
      rcases List.mem_append.mp hn with hn | hn
      · exact ⟨n, hn, hwhole⟩
      · cases List.mem_singleton.mp hn
        cases quiet.symm.trans hwhole

/-! ## Steps and runs -/

theorem step?_encoding (happens : d.step? event = some after) :
    after.buffer.encoding = d.buffer.encoding := by
  cases event with
  | apply caller batches =>
      rw [eq_of_unlessLocked happens, buffer_apply]
      exact Buffer.encoding_progress d.buffer caller batches
  | reset caller version text =>
      rw [eq_of_unlessLocked happens, reset_eq]
      split <;> rfl
  | background event =>
      obtain ⟨scheduler, -, -, rfl⟩ := step?_background happens
      rfl

/-- A step that leaves nothing behind of a refused batch replays on the text as the batches do, and
if the whole text is sent in it, on any other text as well. -/
theorem step?_text {text : List Char} (happens : d.step? event = some after)
    (whole : (refusal? ⟨d, event, after⟩).any EditError.isPartial = false)
    (agree : d.buffer.text = text ∨ sendsWhole ⟨d, event, after⟩ = true) :
    after.buffer.text = replayMoment d.buffer.encoding text ⟨d, event, after⟩ := by
  cases event with
  | apply caller batches =>
      rw [eq_of_unlessLocked happens, buffer_apply]
      rw [refusal?_apply] at whole
      exact Buffer.text_progress whole agree
  | reset caller version replacement =>
      rw [eq_of_unlessLocked happens, reset_eq]
      by_cases hown : caller = d.buffer.owner
      · simp [replayMoment, refusal?, reset_eq, hown, scheduleAnalysis]
      · have hsame : d.buffer.text = text := by
          simpa [sendsWhole, refusal?, reset_eq, hown] using agree
        simpa [replayMoment, refusal?, reset_eq, hown] using hsame
  | background event =>
      obtain ⟨scheduler, -, -, rfl⟩ := step?_background happens
      simpa [sendsWhole, replayMoment, appliedAt] using agree

theorem encoding_of_run (run : Run step? opened log d) :
    d.buffer.encoding = opened.buffer.encoding :=
  (run.invariant (P := fun d => d.buffer.encoding = opened.buffer.encoding)
    (fun _ _ _ happens hsame => (step?_encoding happens).trans hsame) rfl).1

/-- As long as every refusal for the order of changes is made good, the text is the replayed one. -/
theorem text_of_run (run : Run step? opened log d) (resynced : IsResynced log) :
    d.buffer.text = replay opened.buffer.encoding opened.buffer.text log := by
  induction run with
  | start => rfl
  | @extend log d after event prior happens ih =>
      rw [replay, List.foldl_append, ← encoding_of_run prior]
      refine step?_text happens resynced.not_partial ?_
      -- What the text was like before matters only if it is not sent whole at this moment.
      cases hwhole : sendsWhole ⟨d, event, after⟩ with
      | true => exact .inr rfl
      | false =>
          rw [encoding_of_run prior]
          exact .inl (ih (resynced.of_concat hwhole))

/-- A request that is handed over at a moment is for the text that the moment leaves. -/
theorem eq_request_of_handedOver {request : Request} (happens : d.step? event = some after)
    (handedOver : after.scheduler.requests = d.scheduler.requests ++ [request]) :
    request = after.request := by
  have hrequests := step?_requests happens
  rw [handedOver, List.append_cancel_left_eq] at hrequests
  split at hrequests
  · exact List.singleton_inj.mp hrequests
  · cases hrequests

end OpenDocument

end CodeInsight

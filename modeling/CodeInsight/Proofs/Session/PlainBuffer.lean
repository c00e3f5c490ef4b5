/-
# Documents edit like plain buffers

An open document has a loop of its own for applying batches, which also keeps track of
what there is to analyse. What it makes of the text is nothing new: the buffer of a
document becomes what a copy of it would become, for batches that are applied, dropped,
refused or left in part, and the host is answered the same. A session adds to this only
that a refusal is passed on as one of its own.

So a buffer that is given the calls of a document, one after the other, stays the buffer
of that document, whatever passes do in the meantime.
-/

import CodeInsight.Proofs.Session.Steps

namespace CodeInsight

variable {σ : Type}

namespace OpenDocument

variable {d after : OpenDocument σ} {log : List (Moment (OpenDocument σ) (Event σ))}

/-- What an event makes of a plain buffer, which is given the calls of the host. -/
def plainly (b : Buffer) : Event σ → Buffer
  | .apply caller batches => (b.applyAll caller batches).1
  | .reset caller version text => (b.reset caller version text).toOption.getD b
  | .background _ => b

/-- Both loops make the same progress. -/
theorem apply_eq_applyAll (d : OpenDocument σ) (caller : ThreadId) (batches : List Batch) :
    (d.apply caller batches).2 = (d.buffer.applyAll caller batches).2 ∧
      (d.apply caller batches).1.buffer = (d.buffer.applyAll caller batches).1 := by
  rw [buffer_apply, apply_eq, Buffer.applyAll_eq_progress]
  exact ⟨rfl, rfl⟩

theorem step?_plainly {event : Event σ} (happens : d.step? event = some after) :
    after.buffer = plainly d.buffer event := by
  cases event with
  | apply caller batches =>
      rw [eq_of_unlessLocked happens]
      exact (d.apply_eq_applyAll caller batches).2
  | reset caller version text =>
      rw [eq_of_unlessLocked happens, reset_eq]
      by_cases hown : caller = d.buffer.owner <;>
        simp [plainly, Buffer.reset, Buffer.checkCaller, hown, bind, Except.bind, pure,
          Except.pure, Except.toOption, scheduleAnalysis]
  | background event =>
      obtain ⟨scheduler, -, -, rfl⟩ := step?_background happens
      rfl

/-- A plain buffer keeps up with a document in every run. -/
theorem buffer_of_run (run : Run step? d log after) :
    after.buffer = (log.map (·.event)).foldl plainly d.buffer := by
  induction run with
  | start => rfl
  | extend prior happens ih =>
      rw [List.map_append, List.foldl_append, ← ih]
      exact step?_plainly happens

end OpenDocument

/-- **An open document edits like a plain buffer.** Batches of any kind, applied by whatever thread,
are answered by a document as by a copy of its buffer, and they leave it the buffer that they leave
the copy. In a session the answer is the same, with a refusal passed on as one of the session. So in
every run the buffer of a document is what the calls up to then make of a plain buffer. -/
theorem documents_edit_like_buffers :
    (∀ (d : OpenDocument σ) (caller : ThreadId) (batches : List Batch),
      (d.apply caller batches).2 = (d.buffer.applyAll caller batches).2 ∧
        (d.apply caller batches).1.buffer = (d.buffer.applyAll caller batches).1) ∧
    (∀ (s : Session σ) (uri : DocumentUri) (d : OpenDocument σ) (caller : ThreadId)
      (batches : List Batch), s.document? uri = some d →
      (s.change caller uri batches).2 =
          (d.buffer.applyAll caller batches).2.mapError .edit ∧
        ((s.change caller uri batches).1.document? uri).map (·.buffer) =
          some (d.buffer.applyAll caller batches).1) ∧
    ∀ (d after : OpenDocument σ) (log : List (Moment (OpenDocument σ) (OpenDocument.Event σ))),
      Run OpenDocument.step? d log after →
        after.buffer = (log.map (·.event)).foldl OpenDocument.plainly d.buffer := by
  refine ⟨OpenDocument.apply_eq_applyAll, ?_, fun _ _ _ => OpenDocument.buffer_of_run⟩
  intro s uri d caller batches found
  obtain ⟨hanswer, hbuffer⟩ := d.apply_eq_applyAll caller batches
  have hdocument : (s.put (d.apply caller batches).1).document? uri =
      some (d.apply caller batches).1 :=
    Session.document?_put_of_some found (d.uri_apply caller batches)
  rw [Session.change, Session.onDocument_of_some found, hanswer, hdocument]
  exact ⟨rfl, congrArg some hbuffer⟩

/-- One batch is applied, one dropped, one applied that goes back with the whole text, and one
refused after its first change. A document answers so, a session passes the refusal on, and a run
goes on with a pass, with the batches again from a foreign thread, and with a batch that fits. -/
theorem documents_edit_like_buffers_in_part :
    let b : Buffer := ⟨['a', 'b'], 1, ⟨0⟩, .utf16⟩
    let batches : List Batch :=
      [⟨1, 2, [.insert ⟨0, 0⟩ ['x']]⟩, ⟨1, 5, []⟩, ⟨8, 1, [.whole ['p', 'q']]⟩,
        ⟨1, 5, [.insert ⟨0, 0⟩ ['c'], .insert ⟨0, 2⟩ ['d']]⟩, ⟨1, 6, []⟩]
    let left : Buffer := ⟨['c', 'p', 'q'], 1, ⟨0⟩, .utf16⟩
    let d : OpenDocument Nat := .scheduleAnalysis ⟨"doc", b, .create 0, 0⟩
    let s : Session Nat := ⟨.default, [d], []⟩
    b.applyAll ⟨0⟩ batches = (left, .error (.outOfOrder 0 2)) ∧
      (d.apply ⟨0⟩ batches).2 = .error (.outOfOrder 0 2) ∧
      s.document? "doc" = some d ∧
      (s.change ⟨0⟩ "doc" batches).2 = .error (.edit (.outOfOrder 0 2)) ∧
      ((s.change ⟨0⟩ "doc" batches).1.document? "doc").map (·.buffer) = some left ∧
      ∃ log after, Run OpenDocument.step? d log after ∧ log.length = 4 ∧
        after.buffer = ⟨['c', 'q'], 7, ⟨0⟩, .utf16⟩ := by
  intro b batches left d s
  have happlied : b.applyAll ⟨0⟩ batches = (left, .error (.outOfOrder 0 2)) := by decide +kernel
  have hfound : s.document? "doc" = some d := rfl
  let events : List (OpenDocument.Event Nat) :=
    [.apply ⟨0⟩ batches, .background (.start 0), .apply ⟨1⟩ batches,
      .apply ⟨0⟩ [⟨1, 7, [.delete ⟨⟨0, 1⟩, ⟨0, 2⟩⟩]⟩]]
  have hplain : events.foldl OpenDocument.plainly b = ⟨['c', 'q'], 7, ⟨0⟩, .utf16⟩ := by
    decide +kernel
  have hplayed : (Run.play? OpenDocument.step? d events).isSome := by decide +kernel
  obtain ⟨⟨log, after⟩, hrun⟩ := Option.isSome_iff_exists.mp hplayed
  have hevents : log.map (·.event) = events := Run.events_of_play? hrun
  have hlength : log.length = 4 := by simpa [events] using congrArg List.length hevents
  obtain ⟨hdocuments, hsessions, hruns⟩ := documents_edit_like_buffers (σ := Nat)
  have run := Run.of_play? hrun
  have hbuffer := hruns d after log run
  rw [hevents] at hbuffer
  obtain ⟨hanswer, hleft⟩ := hsessions s "doc" d ⟨0⟩ batches hfound
  have hdocument := (hdocuments d ⟨0⟩ batches).1
  have hcopy : d.buffer = b := rfl
  rw [hcopy, happlied] at hanswer hleft hdocument
  exact ⟨happlied, hdocument, hfound, hanswer, hleft, log, after, run, hlength,
    hbuffer.trans hplain⟩

end CodeInsight

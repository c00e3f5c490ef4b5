/-
# Open documents

An open document is a buffer with the analyses run over it. Its text is analysed
again whenever an operation has changed it, once for each operation. When a batch
is refused after others were applied, the text those left is analysed, unless the
refused batch has left something of its own behind: such a text belongs to no
version, and the host is expected to send the whole text again.
-/

import CodeInsight.Edit.Buffer
import CodeInsight.Reanalysis.Scheduler

namespace CodeInsight

/-- A document that an editor has opened. -/
structure OpenDocument (σ : Type) where
  uri : DocumentUri
  buffer : Buffer
  scheduler : Scheduler σ
  /-- The generation of the pass that was scheduled last. -/
  lastPass : UInt64

namespace OpenDocument

variable {σ : Type}

/-- The request to analyse the text as it is. -/
def request (d : OpenDocument σ) : Request := ⟨d.uri, d.buffer.version, d.buffer.text⟩

/-- Schedules a pass over the text as it is. -/
def scheduleAnalysis (d : OpenDocument σ) : OpenDocument σ :=
  let (scheduler, lastPass) := d.scheduler.schedule d.request
  { d with scheduler, lastPass }

/-- Opens a document, which belongs to the calling thread, and schedules its first pass. -/
def create (caller : ThreadId) (uri : DocumentUri) (version : Version) (text : List Char)
    (encoding : ColumnEncoding) (scheduler : Scheduler σ) : Except EditError (OpenDocument σ) := do
  let buffer ← (Buffer.create caller encoding).reset caller version text
  return scheduleAnalysis ⟨uri, buffer, scheduler, 0⟩

/-- Applies batches in order up to the first that is refused, where `done` lists the outcomes of
the batches before. -/
def applyAfter (d : OpenDocument σ) (caller : ThreadId) (done : List BatchOutcome) :
    List Batch → OpenDocument σ × Except EditError (List BatchOutcome)
  | [] => (if done.any BatchOutcome.isApplied then d.scheduleAnalysis else d, .ok done)
  | batch :: rest =>
    match d.buffer.apply caller batch with
    | (buffer, .ok outcome) => applyAfter { d with buffer } caller (done ++ [outcome]) rest
    | (buffer, .error e) =>
      let changed : OpenDocument σ := { d with buffer }
      let committed := done.any BatchOutcome.isApplied && !e.isPartial
      (if committed then changed.scheduleAnalysis else changed, .error e)

/-- Applies batches in order up to the first that is refused. -/
def apply (d : OpenDocument σ) (caller : ThreadId) (batches : List Batch) :
    OpenDocument σ × Except EditError (List BatchOutcome) :=
  d.applyAfter caller [] batches

/-- Replaces text and version. -/
def reset (d : OpenDocument σ) (caller : ThreadId) (version : Version) (text : List Char) :
    OpenDocument σ × Except EditError Unit :=
  match d.buffer.reset caller version text with
  | .ok buffer => (scheduleAnalysis { d with buffer }, .ok ())
  | .error e => (d, .error e)

/-- Cancels the pass in flight. -/
def cancel (d : OpenDocument σ) : OpenDocument σ := { d with scheduler := d.scheduler.cancel }

/-- The newest published snapshot, which may trail the text. -/
def latest? (d : OpenDocument σ) : Option σ := d.scheduler.latest?

/-- Waits for the snapshot of the pass that was scheduled last. -/
def waitForCurrent (d : OpenDocument σ) : Wait σ := d.scheduler.waitForGeneration d.lastPass

end OpenDocument

end CodeInsight

/-
# Edit buffers

A buffer holds the text of one open document at one version. It accepts batches
from the thread that created it and from no other. A batch made of spans has to
start from the buffer's version and to move it forward: an older batch is
dropped, a newer one means that something was lost on the way. A batch that
replaces the whole text is taken at any version.

Spans of a batch are read in the text before the batch and applied in the order
listed. Each has to start no later than the one before it; when one does not,
the batch is refused, and the changes before it stay. This is the one refusal
that leaves a text belonging to no version.
-/

import CodeInsight.Edit.Change
import CodeInsight.Edit.Splice

namespace CodeInsight

/-- The identity of a thread of the host. -/
structure ThreadId where
  number : Nat
  deriving DecidableEq, Repr

/-- Why an edit was refused. -/
inductive EditError where
  /-- The batch starts from a version that the buffer has not reached. -/
  | missingVersions (current start : Version)
  /-- The batch does not move the version forward. -/
  | nonMonotonicVersion (start stop : Version)
  /-- A span starts behind the span listed before it. -/
  | outOfOrder (previous start : Nat)
  /-- The caller is not the thread that created the buffer. -/
  | foreignThread
  deriving DecidableEq, Repr

namespace EditError

/-- What the host is told. -/
def message : EditError → String
  | missingVersions current start =>
    "missing prior versions: buffer is at " ++ toString current.toInt
      ++ ", batch starts at " ++ toString start.toInt
  | nonMonotonicVersion start stop =>
    "cannot reduce version without resetting buffer (" ++ toString start.toInt
      ++ " -> " ++ toString stop.toInt ++ ")"
  | outOfOrder previous start =>
    "changes must be in reverse order of start location (offset " ++ toString start
      ++ " follows " ++ toString previous ++ ")"
  | foreignThread => "document buffer must be mutated from the thread that created it"

/-- After every refusal but that of a foreign thread, the host has to send the whole text again. -/
def needsResync (e : EditError) : Bool := e != foreignThread

/-- Only a batch out of order leaves some of its changes behind. -/
def isPartial : EditError → Bool
  | outOfOrder _ _ => true
  | _ => false

end EditError

/-- What became of an accepted batch. -/
inductive BatchOutcome where
  /-- The batch was applied, and the buffer moved to this version. -/
  | applied (version : Version)
  /-- The batch starts before the buffer's version and was dropped. -/
  | stale (version start : Version)
  deriving DecidableEq, Repr

/-- Whether a batch has changed the buffer. -/
def BatchOutcome.isApplied : BatchOutcome → Bool
  | applied _ => true
  | stale _ _ => false

/-- The text of one open document. -/
structure Buffer where
  text : List Char
  version : Version
  owner : ThreadId
  encoding : ColumnEncoding
  deriving DecidableEq

namespace Buffer

/-- The version of a buffer that has not been given any text. -/
def blankVersion : Version := -1

/-- An empty buffer that belongs to the calling thread. -/
def create (caller : ThreadId) (encoding : ColumnEncoding) : Buffer :=
  ⟨[], blankVersion, caller, encoding⟩

/-- Whether the buffer was given a text at a version to count from. -/
def hasBaseline (b : Buffer) : Bool := 0 ≤ b.version

/-- The line table of the buffer's text. -/
def lineTable (b : Buffer) : LineTable := .ofText b.text b.encoding

/-- Only the owner may edit. -/
def checkCaller (b : Buffer) (caller : ThreadId) : Except EditError Unit :=
  if caller = b.owner then .ok () else .error .foreignThread

/-- The owner replaces text and version, whatever they were. -/
def reset (b : Buffer) (caller : ThreadId) (version : Version) (text : List Char) :
    Except EditError Buffer := do
  b.checkCaller caller
  return { b with text, version }

/-- What the versions of a batch mean to a buffer. -/
inductive Admission where
  | accepted
  | stale
  | refused (error : EditError)
  deriving DecidableEq

/-- A batch that replaces the whole text is always accepted. Any other one has to start from the
version of the baseline, if there is one, and to move forward. -/
def admission (b : Buffer) (batch : Batch) : Admission :=
  if batch.hasWhole then .accepted
  else if b.hasBaseline && batch.fromVersion < b.version then .stale
  else if b.hasBaseline && b.version < batch.fromVersion then
    .refused (.missingVersions b.version batch.fromVersion)
  else if batch.toVersion ≤ batch.fromVersion then
    .refused (.nonMonotonicVersion batch.fromVersion batch.toVersion)
  else .accepted

/-- Applies changes in order, their spans read in `table`, as long as none starts behind `bound`,
the start of the span before it. The answer is the text reached and the refusal, if any. -/
def applyChanges (table : LineTable) (bound : Option Nat) (text : List Char) :
    List Change → List Char × Option EditError
  | [] => (text, none)
  | .whole replacement :: rest => applyChanges table bound replacement rest
  | .replace span inserted :: rest =>
    let splice := Splice.resolve table text.length span inserted
    match bound.filter (· < splice.start) with
    | some previous => (text, some (.outOfOrder previous splice.start))
    | none => applyChanges table (some splice.start) (splice.apply text) rest

/-- Applies one batch. -/
def apply (b : Buffer) (caller : ThreadId) (batch : Batch) :
    Buffer × Except EditError BatchOutcome :=
  match b.checkCaller caller with
  | .error e => (b, .error e)
  | .ok () =>
    match b.admission batch with
    | .stale => (b, .ok (.stale b.version batch.fromVersion))
    | .refused e => (b, .error e)
    | .accepted =>
      match applyChanges b.lineTable none b.text batch.changes with
      | (text, none) =>
        ({ b with text, version := batch.toVersion }, .ok (.applied batch.toVersion))
      | (text, some e) => ({ b with text }, .error e)

/-- Applies batches in order up to the first that is refused. -/
def applyAll (b : Buffer) (caller : ThreadId) :
    List Batch → Buffer × Except EditError (List BatchOutcome)
  | [] => (b, .ok [])
  | batch :: rest =>
    match b.apply caller batch with
    | (b, .error e) => (b, .error e)
    | (b, .ok outcome) =>
      match b.applyAll caller rest with
      | (b, .error e) => (b, .error e)
      | (b, .ok outcomes) => (b, .ok (outcome :: outcomes))

end Buffer

end CodeInsight

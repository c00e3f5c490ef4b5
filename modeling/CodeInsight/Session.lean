/-
# Sessions

A session holds the open documents of one host. Documents do not share anything
but the settings. Closing a document cancels its analysis; its passes may still
be running then, but nobody can reach the document any more, and opening the same
address again starts afresh.
-/

import CodeInsight.Reanalysis.Clock
import CodeInsight.Session.OpenDocument
import CodeInsight.Settings

namespace CodeInsight

/-- Why an operation on a session was refused. -/
inductive SessionError where
  /-- The buffer of the document refused the edit. -/
  | edit (error : EditError)
  | unknownDocument (uri : DocumentUri)
  | alreadyOpen (uri : DocumentUri)
  /-- The settings could not be read. -/
  | settings (error : SettingsError)
  deriving DecidableEq, Repr

namespace SessionError

/-- What the host is told. -/
def message : SessionError → String
  | edit error => error.message
  | unknownDocument uri => "document is not open: " ++ uri
  | alreadyOpen uri => "document is already open: " ++ uri
  | settings error => "failed to parse analysis config: " ++ error.message

/-- Whether the host has to send the whole text again. -/
def needsResync : SessionError → Bool
  | edit error => error.needsResync
  | _ => false

end SessionError

/-- The open documents of a host. -/
structure Session (σ : Type) where
  settings : Settings
  documents : List (OpenDocument σ)
  /-- Closed documents, whose passes may still be running. -/
  closed : List (OpenDocument σ)

namespace Session

variable {σ : Type}

/-- A session without documents. -/
def create (settings : Settings) : Session σ := ⟨settings, [], []⟩

/-- The open document with an address. -/
def document? (s : Session σ) (uri : DocumentUri) : Option (OpenDocument σ) :=
  s.documents.find? (·.uri = uri)

/-- The open document with an address, or the refusal when there is none. -/
def document (s : Session σ) (uri : DocumentUri) : Except SessionError (OpenDocument σ) :=
  match s.document? uri with
  | some d => .ok d
  | none => .error (.unknownDocument uri)

/-- The open documents, by address. -/
def listing (s : Session σ) : List (OpenDocument σ) :=
  s.documents.mergeSort fun a b => (compare a.uri b.uri).isLE

/-- The session with one of its documents changed. -/
def put (s : Session σ) (changed : OpenDocument σ) : Session σ :=
  { s with documents := s.documents.map fun d => if d.uri = changed.uri then changed else d }

/-- Does something to an open document. -/
def onDocument {α : Type} (s : Session σ) (uri : DocumentUri)
    (act : OpenDocument σ → OpenDocument σ × Except EditError α) :
    Session σ × Except SessionError α :=
  match s.document? uri with
  | none => (s, .error (.unknownDocument uri))
  | some d =>
    match act d with
    | (changed, .ok result) => (s.put changed, .ok result)
    | (changed, .error e) => (s.put changed, .error (.edit e))

/-- Opens a document, which will belong to the calling thread. -/
def openDocument (s : Session σ) (caller : ThreadId) (uri : DocumentUri) (version : Version)
    (text : List Char) : Session σ × Except SessionError (OpenDocument σ) :=
  match s.document? uri with
  | some _ => (s, .error (.alreadyOpen uri))
  | none =>
    let scheduler := Scheduler.create s.settings.debounceMs.toNat
    match OpenDocument.create caller uri version text s.settings.positionEncoding scheduler with
    | .ok d => ({ s with documents := s.documents ++ [d] }, .ok d)
    | .error e => (s, .error (.edit e))

/-- Applies batches to an open document. -/
def change (s : Session σ) (caller : ThreadId) (uri : DocumentUri) (batches : List Batch) :
    Session σ × Except SessionError (List BatchOutcome) :=
  s.onDocument uri (·.apply caller batches)

/-- Replaces the text of an open document. -/
def reset (s : Session σ) (caller : ThreadId) (uri : DocumentUri) (version : Version)
    (text : List Char) : Session σ × Except SessionError Unit :=
  s.onDocument uri (·.reset caller version text)

/-- Closes a document and cancels its analysis. -/
def close (s : Session σ) (uri : DocumentUri) : Session σ × Except SessionError Unit :=
  match s.document? uri with
  | none => (s, .error (.unknownDocument uri))
  | some d =>
    ({ s with
        documents := s.documents.filter (·.uri ≠ uri)
        closed := d.cancel :: s.closed },
      .ok ())

/-- The newest published snapshot of an open document. -/
def latest (s : Session σ) (uri : DocumentUri) : Except SessionError (Option σ) :=
  (s.document uri).map (·.latest?)

/-- Every pass of one document does as much as it can, with the requests of the analyses that
begin. -/
def settleDocument (clock : Clock) (analyze : Analyzer σ) (d : OpenDocument σ) :
    OpenDocument σ × List Request :=
  let (scheduler, started) := d.scheduler.settle clock analyze
  ({ d with scheduler }, started)

/-- Every pass does as much as it can, with the requests of the analyses that begin. -/
def settle (s : Session σ) (clock : Clock) (analyze : Analyzer σ) : Session σ × List Request :=
  let documents := s.documents.map (settleDocument clock analyze)
  let closed := s.closed.map (settleDocument clock analyze)
  ({ s with documents := documents.map (·.1), closed := closed.map (·.1) },
    documents.flatMap (·.2) ++ closed.flatMap (·.2))

end Session

end CodeInsight

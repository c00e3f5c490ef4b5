/-
# The steps of a session

A session moves by the operations of its host and by the passes of its documents, those of
closed documents included. An operation that takes the lock of a document waits while one
of its passes is publishing. What an analysis comes to is told by its request alone.

For any one address a step is of four kinds (`DocumentStep`): its document is opened, or
closed, or makes a step of its own, or is left alone. So facts about open documents apply
to the documents of a session.
-/

import CodeInsight.Proofs.Session.Operations
import CodeInsight.Session

namespace CodeInsight

variable {σ : Type}

namespace Scheduler

/-- What a pass does next. -/
inductive PassStep where
  | revoke
  | delay (due : Nat)
  | start
  | abandon
  /-- The analysis ends. -/
  | answer
  | finish
  | complete
  deriving DecidableEq

/-- The event that a step of a pass is, where an analysis ends as `analyze` has it. -/
def passEvent? (s : Scheduler σ) (analyze : Request → Option σ) (i : Nat) :
    PassStep → Option (Event σ)
  | .revoke => some (.revoke i)
  | .delay due => some (.delay i due)
  | .start => some (.start i)
  | .abandon => some (.abandon i)
  | .answer => s.passes[i]?.map fun pass => .answer i (analyze pass.request)
  | .finish => some (.finish i)
  | .complete => some (.complete i)

end Scheduler

/-- A document after a step of one of its passes. -/
def OpenDocument.passStep? (d : OpenDocument σ) (analyze : Request → Option σ) (i : Nat)
    (step : Scheduler.PassStep) : Option (OpenDocument σ) :=
  (d.scheduler.passEvent? analyze i step).bind fun event => d.step? (.background event)

namespace Session

/-! ## Operations of the host -/

/-- What a host asks of a session. -/
inductive Operation where
  | openDocument (caller : ThreadId) (uri : DocumentUri) (version : Version) (text : List Char)
  | change (caller : ThreadId) (uri : DocumentUri) (batches : List Batch)
  | reset (caller : ThreadId) (uri : DocumentUri) (version : Version) (text : List Char)
  | close (uri : DocumentUri)
  | latest (uri : DocumentUri)

namespace Operation

/-- The address that an operation is about. -/
def uri : Operation → DocumentUri
  | openDocument _ uri _ _ | change _ uri _ | reset _ uri _ _ | close uri | latest uri => uri

/-- Whether an operation asks for a document to be opened. -/
def opens : Operation → Bool
  | openDocument .. => true
  | _ => false

/-- Whether an operation takes the lock of the document that is open at its address. -/
def takesLock (d : OpenDocument σ) : Operation → Bool
  | openDocument .. | latest _ => false
  | change caller _ batches =>
    (d.apply caller batches).1.scheduler.passes.size ≠ d.scheduler.passes.size
  | reset caller _ version text =>
    (d.reset caller version text).1.scheduler.passes.size ≠ d.scheduler.passes.size
  | close _ => true

end Operation

/-- What a host is answered. -/
inductive Answer (σ : Type) where
  | opened (result : Except SessionError (OpenDocument σ))
  | changed (result : Except SessionError (List BatchOutcome))
  | replaced (result : Except SessionError Unit)
  | closed (result : Except SessionError Unit)
  | newest (result : Except SessionError (Option σ))

/-- The session after an operation, and the answer. -/
def perform (s : Session σ) : Operation → Session σ × Answer σ
  | .openDocument caller uri version text =>
    (s.openDocument caller uri version text).map id .opened
  | .change caller uri batches => (s.change caller uri batches).map id .changed
  | .reset caller uri version text => (s.reset caller uri version text).map id .replaced
  | .close uri => (s.close uri).map id .closed
  | .latest uri => (s, .newest (s.latest uri))

/-! ## Steps -/

/-- What can happen to a session without interruption. -/
inductive Event where
  | host (operation : Operation)
  /-- A pass of the open document makes a step. -/
  | pass (uri : DocumentUri) (i : Nat) (step : Scheduler.PassStep)
  /-- A pass of a closed document makes a step. Of those with one address the document that was
  closed last has the number zero. -/
  | late (uri : DocumentUri) (k : Nat) (i : Nat) (step : Scheduler.PassStep)

/-- The address that an event is about. -/
def Event.uri : Event → DocumentUri
  | host operation => operation.uri
  | pass uri .. | late uri .. => uri

/-- The documents with an address that were closed, the last one first. -/
def closedOf (s : Session σ) (uri : DocumentUri) : List (OpenDocument σ) :=
  s.closed.filter (·.uri = uri)

/-- Documents after something was done to one of them, which goes by its number among those with its
address. -/
def actOnNth? (uri : DocumentUri) (act : OpenDocument σ → Option (OpenDocument σ)) :
    (k : Nat) → List (OpenDocument σ) → Option (List (OpenDocument σ))
  | _, [] => none
  | k, d :: rest =>
    if d.uri ≠ uri then (actOnNth? uri act k rest).map (d :: ·)
    else if k = 0 then (act d).map (· :: rest)
    else (actOnNth? uri act (k - 1) rest).map (d :: ·)

/-- What an event makes of a session. An operation does not happen while it has to wait for the
lock. -/
def step? (analyze : Request → Option σ) (s : Session σ) : Event → Option (Session σ)
  | .host operation =>
    if (s.document? operation.uri).any fun d => d.scheduler.isLocked && operation.takesLock d then
      none
    else some (s.perform operation).1
  | .pass uri i step => do
    let d ← s.document? uri
    let changed ← d.passStep? analyze i step
    return s.put changed
  | .late uri k i step => do
    let closed ← actOnNth? uri (·.passStep? analyze i step) k s.closed
    return { s with closed }

/-- What the host is answered at a moment, if it asked for something. -/
def answer? (m : Moment (Session σ) Event) : Option (Answer σ) :=
  match m.event with
  | .host operation => some (m.before.perform operation).2
  | _ => none

/-! ## One of many documents -/

section ActOnNth

variable {uri : DocumentUri} {act : OpenDocument σ → Option (OpenDocument σ)} {k : Nat}
  {d d' : OpenDocument σ} {documents changed : List (OpenDocument σ)}

/-- Of the documents with an address, the one behind `k` others goes by the number `k`. -/
theorem actOnNth?_append (about : d.uri = uri) (acts : act d = some d')
    (before rest : List (OpenDocument σ)) :
    actOnNth? uri act (before.filter (·.uri = uri)).length (before ++ d :: rest) =
      some (before ++ d' :: rest) := by
  induction before with
  | nil => simp [actOnNth?, about, acts]
  | cons e before ih => by_cases huri : e.uri = uri <;> simp [actOnNth?, huri, ih]

/-- Something is done to the document that goes by the number, and to no other. -/
theorem actOnNth?_eq_some_iff :
    actOnNth? uri act k documents = some changed ↔
      ∃ before d d' rest, documents = before ++ d :: rest ∧ changed = before ++ d' :: rest ∧
        d.uri = uri ∧ (before.filter (·.uri = uri)).length = k ∧ act d = some d' := by
  constructor
  · intro done
    induction documents generalizing k changed with
    | nil => cases done
    | cons e documents ih =>
        rw [actOnNth?] at done
        split at done
        · obtain ⟨others, hdone, rfl⟩ := Option.map_eq_some_iff.mp done
          obtain ⟨before, d, d', rest, rfl, rfl, huri, hk, hact⟩ := ih hdone
          exact ⟨e :: before, d, d', rest, rfl, rfl, huri, by simpa [‹e.uri ≠ uri›] using hk, hact⟩
        · have he : e.uri = uri := not_not.mp ‹_›
          split at done
          · obtain ⟨e', hact, rfl⟩ := Option.map_eq_some_iff.mp done
            exact ⟨[], e, e', documents, rfl, rfl, he, ‹k = 0›.symm, hact⟩
          · obtain ⟨others, hdone, rfl⟩ := Option.map_eq_some_iff.mp done
            obtain ⟨before, d, d', rest, rfl, rfl, huri, hk, hact⟩ := ih hdone
            have hcount : (e :: before).filter (·.uri = uri) = e :: before.filter (·.uri = uri) :=
              List.filter_cons_of_pos (decide_eq_true he)
            refine ⟨e :: before, d, d', rest, rfl, rfl, huri, ?_, hact⟩
            rw [hcount, List.length_cons, hk, Nat.sub_add_cancel (Nat.pos_of_ne_zero ‹k ≠ 0›)]
  · rintro ⟨before, d, d', rest, rfl, rfl, huri, rfl, hact⟩
    exact actOnNth?_append huri hact before rest

end ActOnNth

/-! ## Operations as changes of the documents -/

variable {s after : Session σ} {uri : DocumentUri} {d : OpenDocument σ}

theorem uri_of_document? (found : s.document? uri = some d) : d.uri = uri := by
  simpa using List.find?_some found

/-- A document that is put in the place of another one has the address of that one. -/
theorem uri_put (d changed : OpenDocument σ) :
    (if d.uri = changed.uri then changed else d).uri = d.uri := by
  split
  · exact ‹d.uri = changed.uri›.symm
  · rfl

theorem document?_put_of_some {d' : OpenDocument σ} (found : s.document? uri = some d)
    (same : d'.uri = d.uri) : (s.put d').document? uri = some d' := by
  have huri : (fun e : OpenDocument σ => decide (e.uri = uri)) ∘
      (fun e => if e.uri = d'.uri then d' else e) = fun e => decide (e.uri = uri) := by
    funext e
    rw [Function.comp, uri_put]
  rw [document?, put, List.find?_map, huri, ← document?, found, Option.map_some,
    if_pos same.symm]

theorem onDocument_of_none {α : Type}
    {act : OpenDocument σ → OpenDocument σ × Except EditError α}
    (absent : s.document? uri = none) :
    s.onDocument uri act = (s, .error (.unknownDocument uri)) := by
  rw [onDocument, absent]

theorem onDocument_of_some {α : Type}
    {act : OpenDocument σ → OpenDocument σ × Except EditError α}
    (found : s.document? uri = some d) :
    s.onDocument uri act = (s.put (act d).1, (act d).2.mapError .edit) := by
  rw [onDocument, found]
  dsimp only
  rcases act d with ⟨changed, e | result⟩ <;> rfl

theorem openDocument_of_some {caller : ThreadId} {version : Version} {text : List Char}
    (found : s.document? uri = some d) :
    s.openDocument caller uri version text = (s, .error (.alreadyOpen uri)) := by
  rw [openDocument, found]

/-- A document as it is when it has just been opened in a session. -/
def opening (s : Session σ) (caller : ThreadId) (uri : DocumentUri) (version : Version)
    (text : List Char) : OpenDocument σ :=
  OpenDocument.scheduleAnalysis ⟨uri, ⟨text, version, caller, s.settings.positionEncoding⟩,
    .create s.settings.debounceMs.toNat, 0⟩

theorem openDocument_of_none {caller : ThreadId} {version : Version} {text : List Char}
    (absent : s.document? uri = none) :
    s.openDocument caller uri version text =
      ({ s with documents := s.documents ++ [s.opening caller uri version text] },
        .ok (s.opening caller uri version text)) := by
  rw [openDocument, absent]
  dsimp only
  rw [OpenDocument.create_eq]
  rfl

theorem close_of_none (absent : s.document? uri = none) :
    s.close uri = (s, .error (.unknownDocument uri)) := by
  rw [close, absent]

theorem close_of_some (found : s.document? uri = some d) :
    s.close uri =
      ({ s with
          documents := s.documents.filter (·.uri ≠ uri)
          closed := d.cancel :: s.closed },
        .ok ()) := by
  rw [close, found]

theorem uri_of_passStep? {i : Nat} {step : Scheduler.PassStep} {d' : OpenDocument σ}
    {analyze : Request → Option σ} (happens : d.passStep? analyze i step = some d') :
    d'.uri = d.uri := by
  obtain ⟨event, -, hstep⟩ := Option.bind_eq_some_iff.mp happens
  exact OpenDocument.step?_uri hstep

/-- An operation that opens a document which is open, or needs one where none is open, is refused
and changes nothing. -/
theorem perform_of_refused {operation : Operation}
    (refused : operation.opens = (s.document? operation.uri).isSome) :
    (s.perform operation).1 = s := by
  cases hfound : s.document? operation.uri with
  | none =>
      rw [hfound] at refused
      cases operation with
      | openDocument => cases refused
      | change caller uri batches =>
          have habsent : s.document? uri = none := hfound
          rw [perform, Session.change, onDocument_of_none habsent]
          rfl
      | reset caller uri version text =>
          have habsent : s.document? uri = none := hfound
          rw [perform, Session.reset, onDocument_of_none habsent]
          rfl
      | close uri =>
          have habsent : s.document? uri = none := hfound
          rw [perform, close_of_none habsent]
          rfl
      | latest => rfl
  | some d =>
      rw [hfound] at refused
      cases operation with
      | openDocument caller uri version text =>
          have hopen : s.document? uri = some d := hfound
          rw [perform, openDocument_of_some hopen]
          rfl
      | change | reset | close | latest => cases refused

/-! ## Steps case by case -/

/-- What an operation is to the document that is open at its address. -/
def Operation.documentEvent? : Operation → Option (OpenDocument.Event σ)
  | .change caller _ batches => some (.apply caller batches)
  | .reset caller _ version text => some (.reset caller version text)
  | .openDocument .. | .close _ | .latest _ => none

/-- All that an event can do to a session. -/
inductive Stepped (analyze : Request → Option σ) (s : Session σ) : Event → Session σ → Prop where
  /-- The operation was refused or changes nothing anyway. -/
  | unchanged {operation : Operation} : Stepped analyze s (.host operation) s
  | opened {caller : ThreadId} {uri : DocumentUri} {version : Version} {text : List Char}
      (absent : s.document? uri = none) :
      Stepped analyze s (.host (.openDocument caller uri version text))
        { s with documents := s.documents ++ [s.opening caller uri version text] }
  | operated {operation : Operation} {d d' : OpenDocument σ} {event : OpenDocument.Event σ}
      (found : s.document? operation.uri = some d)
      (event_of : operation.documentEvent? = some event) (happens : d.step? event = some d') :
      Stepped analyze s (.host operation) (s.put d')
  | closed {uri : DocumentUri} {d : OpenDocument σ} (found : s.document? uri = some d)
      (free : d.scheduler.isLocked = false) :
      Stepped analyze s (.host (.close uri))
        { s with
          documents := s.documents.filter (·.uri ≠ uri)
          closed := d.cancel :: s.closed }
  | passed {uri : DocumentUri} {d d' : OpenDocument σ} {i : Nat} {step : Scheduler.PassStep}
      (found : s.document? uri = some d) (happens : d.passStep? analyze i step = some d') :
      Stepped analyze s (.pass uri i step) (s.put d')
  | late {uri : DocumentUri} {k i : Nat} {step : Scheduler.PassStep}
      {closed : List (OpenDocument σ)}
      (acted : actOnNth? uri (·.passStep? analyze i step) k s.closed = some closed) :
      Stepped analyze s (.late uri k i step) { s with closed }

theorem stepped_of_step? {analyze : Request → Option σ} {event : Event}
    (happens : s.step? analyze event = some after) : Stepped analyze s event after := by
  cases event with
  | host operation =>
      obtain ⟨hfree, happens⟩ := Option.ite_none_left_eq_some.mp happens
      cases happens
      cases hfound : s.document? operation.uri with
      | none =>
          cases operation with
          | openDocument caller uri version text =>
              have habsent : s.document? uri = none := hfound
              rw [perform, openDocument_of_none habsent]
              exact .opened habsent
          | change | reset | close | latest =>
              rw [perform_of_refused (by rw [hfound]; rfl)]
              exact .unchanged
      | some d =>
          rw [hfound] at hfree
          cases operation with
          | openDocument =>
              rw [perform_of_refused (by rw [hfound]; rfl)]
              exact .unchanged
          | change caller uri batches =>
              have hopen : s.document? uri = some d := hfound
              rw [perform, Session.change, onDocument_of_some hopen]
              exact .operated hfound rfl (if_neg hfree)
          | reset caller uri version text =>
              have hopen : s.document? uri = some d := hfound
              rw [perform, Session.reset, onDocument_of_some hopen]
              exact .operated hfound rfl (if_neg hfree)
          | close uri =>
              have hopen : s.document? uri = some d := hfound
              rw [perform, close_of_some hopen]
              refine .closed hopen ?_
              simpa [Operation.takesLock] using hfree
          | latest => exact .unchanged
  | pass uri i step =>
      obtain ⟨d, hfound, hpassed⟩ := Option.bind_eq_some_iff.mp happens
      obtain ⟨d', hstep, hafter⟩ := Option.bind_eq_some_iff.mp hpassed
      cases hafter
      exact .passed hfound hstep
  | late uri k i step =>
      obtain ⟨closed, hacted, hafter⟩ := Option.bind_eq_some_iff.mp happens
      cases hafter
      exact .late hacted

end Session

end CodeInsight

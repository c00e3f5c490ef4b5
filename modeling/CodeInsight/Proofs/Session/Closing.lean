/-
# Closing a document

A document that is closed has shown the last of its snapshots. Its passes may still be
running, and whoever has kept a receiver of it goes on listening, but nothing is
published any more, whatever its passes come to and whatever else the session does.

Here analyses may answer anything at any time, and the host may reach the scheduler of
an open document past the session, to cancel and to schedule. Closed documents go by
their numbers in the order of their closing, which nothing changes.
-/

import CodeInsight.Proofs.Reanalysis.Cancellation
import CodeInsight.Proofs.Session.SchedulerRun
import CodeInsight.Proofs.Session.Steps
import Mathlib.Data.List.Forall2

namespace CodeInsight

variable {σ : Type}

namespace OpenDocument

variable {d after : OpenDocument σ}

/-- A document after something has happened to its scheduler. -/
def schedulerStep? (d : OpenDocument σ) (event : Scheduler.Event σ) : Option (OpenDocument σ) :=
  (d.scheduler.step? event).map fun scheduler => { d with scheduler }

theorem of_schedulerStep? {event : Scheduler.Event σ}
    (happens : d.schedulerStep? event = some after) :
    d.scheduler.Step event after.scheduler ∧ after.uri = d.uri := by
  obtain ⟨scheduler, hstep, rfl⟩ := Option.map_eq_some_iff.mp happens
  exact ⟨Scheduler.step?_eq_some_iff.mp hstep, rfl⟩

/-- An event leaves the scheduler of a document alone, or is a step of it. -/
theorem step?_scheduler_cases {event : Event σ} (happens : d.step? event = some after) :
    after.scheduler = d.scheduler ∨ ∃ e, d.scheduler.Step e after.scheduler := by
  cases hseen : schedulerEvent? ⟨d, event, after⟩ with
  | none => exact .inl (step?_scheduler_of_none happens hseen)
  | some e => exact .inr ⟨e, Scheduler.step?_eq_some_iff.mp (step?_scheduler happens hseen)⟩

/-- The scheduler of a document keeps track of its passes. -/
def Tracks (d : OpenDocument σ) : Prop := d.scheduler.Numbered ∧ d.scheduler.Tracking

theorem Tracks.step {event : Scheduler.Event σ} (tracks : d.Tracks) (inTime : d.scheduler.InTime)
    (step : d.scheduler.Step event after.scheduler) : after.Tracks :=
  ⟨step.numbered tracks.1, step.tracking tracks.1 inTime tracks.2⟩

/-- `d.Rests after` says that from `d` to `after` a document has shown nothing new, and that it will
not show anything new any more. -/
structure Rests (d after : OpenDocument σ) : Prop where
  uri : after.uri = d.uri
  silent : after.scheduler.Silent
  showsSame : d.scheduler.ShowsSame after.scheduler

theorem Rests.trans {later : OpenDocument σ} (rests : d.Rests after) (goesOn : after.Rests later) :
    d.Rests later :=
  ⟨goesOn.uri.trans rests.uri, goesOn.silent, rests.showsSame.trans goesOn.showsSame⟩

theorem rests_of_silent (silent : d.scheduler.Silent) : d.Rests d := ⟨rfl, silent, .refl _⟩

theorem rests_of_schedulerStep? {event : Scheduler.Event σ} (silent : d.scheduler.Silent)
    (quiet : event.isSchedule = false) (happens : d.schedulerStep? event = some after) :
    d.Rests after := by
  obtain ⟨hstep, huri⟩ := of_schedulerStep? happens
  exact ⟨huri, silent.step hstep quiet, silent.showsSame hstep⟩

/-- A document that keeps track of its passes comes to rest when it is cancelled. -/
theorem Tracks.rests_cancel (tracks : d.Tracks) (free : d.scheduler.isLocked = false) :
    d.Rests d.cancel :=
  ⟨rfl, tracks.2.silent_cancel free, d.scheduler.showsSame_cancel⟩

end OpenDocument

namespace Session

variable {s t : Session σ} {uri : DocumentUri} {d d' : OpenDocument σ}

/-! ## One of many documents -/

section ActOnNth

variable {act : OpenDocument σ → Option (OpenDocument σ)} {k : Nat}
  {documents changed : List (OpenDocument σ)}

/-- What is done to one of the documents may be one of several things. -/
theorem exists_actOnNth? {ι : Type} {acts : ι → OpenDocument σ → Option (OpenDocument σ)}
    {P : ι → Prop} (each : ∀ d d', act d = some d' → ∃ i, P i ∧ acts i d = some d')
    (done : actOnNth? uri act k documents = some changed) :
    ∃ i, P i ∧ actOnNth? uri (acts i) k documents = some changed := by
  obtain ⟨before, d, d', rest, rfl, rfl, huri, hk, hact⟩ := actOnNth?_eq_some_iff.mp done
  obtain ⟨i, hi, hacts⟩ := each d d' hact
  exact ⟨i, hi, actOnNth?_eq_some_iff.mpr ⟨before, d, d', rest, rfl, rfl, huri, hk, hacts⟩⟩

/-- Each of the documents is related to what it is after. -/
theorem forall₂_of_actOnNth? {R : OpenDocument σ → OpenDocument σ → Prop} (alone : ∀ d, R d d)
    (acts : ∀ d d', act d = some d' → R d d')
    (done : actOnNth? uri act k documents = some changed) : List.Forall₂ R documents changed := by
  obtain ⟨before, d, d', rest, rfl, rfl, -, -, hact⟩ := actOnNth?_eq_some_iff.mp done
  exact List.rel_append (List.forall₂_same.mpr fun d _ => alone d)
    (.cons (acts d d' hact) (List.forall₂_same.mpr fun d _ => alone d))

end ActOnNth

/-! ## Sessions with analyses that answer anything -/

/-- What can happen to a session whose analyses need not depend on their requests alone. -/
inductive Happening (σ : Type) where
  | host (operation : Operation)
  /-- Something happens to the scheduler of an open document. -/
  | scheduler (uri : DocumentUri) (event : Scheduler.Event σ)
  /-- A pass of a closed document makes a step. Of those with one address the document that was
  closed last has the number zero. -/
  | late (uri : DocumentUri) (k : Nat) (event : Scheduler.Event σ)

/-- What becomes of a session. Only its passes can reach a closed document. -/
def happen? (s : Session σ) : Happening σ → Option (Session σ)
  | .host operation => s.step? (fun _ => none) (.host operation)
  | .scheduler uri event => do
    let d ← s.document? uri
    let changed ← d.schedulerStep? event
    return s.put changed
  | .late uri k event =>
    if event.pass?.isNone then none
    else (actOnNth? uri (·.schedulerStep? event) k s.closed).map fun closed => { s with closed }

/-- All that can happen to a session. -/
inductive Happened (s : Session σ) : Session σ → Prop where
  | operated {operation : Operation} {t : Session σ}
      (stepped : Stepped (fun _ => none) s (.host operation) t) : Happened s t
  | moved {uri : DocumentUri} {d changed : OpenDocument σ} {event : Scheduler.Event σ}
      (found : s.document? uri = some d) (step : d.scheduler.Step event changed.scheduler) :
      Happened s (s.put changed)
  | late {uri : DocumentUri} {k : Nat} {event : Scheduler.Event σ}
      {closed : List (OpenDocument σ)} (quiet : event.isSchedule = false)
      (acted : actOnNth? uri (·.schedulerStep? event) k s.closed = some closed) :
      Happened s { s with closed }

theorem happened_of_happen? {happening : Happening σ} (happens : s.happen? happening = some t) :
    Happened s t := by
  cases happening with
  | host operation =>
      have hstep : s.step? (fun _ => none) (.host operation) = some t := happens
      exact .operated (stepped_of_step? hstep)
  | scheduler uri event =>
      obtain ⟨d, hfound, happens⟩ := Option.bind_eq_some_iff.mp happens
      obtain ⟨changed, hstep, happens⟩ := Option.bind_eq_some_iff.mp happens
      cases happens
      exact .moved hfound (OpenDocument.of_schedulerStep? hstep).1
  | late uri k event =>
      obtain ⟨hpass, happens⟩ := Option.ite_none_left_eq_some.mp happens
      obtain ⟨closed, hacted, rfl⟩ := Option.map_eq_some_iff.mp happens
      refine .late ?_ hacted
      cases event with
      | schedule => exact absurd rfl hpass
      | _ => rfl

/-! ## Analyses that depend on their requests alone -/

/-- A step of a pass, with the answer of its request, is something that happens to the scheduler. -/
theorem exists_schedulerStep? {analyze : Request → Option σ} {i : Nat} {step : Scheduler.PassStep}
    (happens : d.passStep? analyze i step = some d') :
    ∃ event : Scheduler.Event σ, event.pass?.isNone = false ∧ d.schedulerStep? event = some d' := by
  obtain ⟨event, hevent, hstep⟩ := Option.bind_eq_some_iff.mp happens
  obtain ⟨-, hmove⟩ := Option.ite_none_left_eq_some.mp hstep
  refine ⟨event, ?_, hmove⟩
  cases step with
  | answer =>
      obtain ⟨pass, -, rfl⟩ := Option.map_eq_some_iff.mp hevent
      rfl
  | revoke | delay | start | abandon | finish | complete =>
      cases hevent
      rfl

/-- Where analyses depend on their requests alone, all that happens is among this. -/
theorem exists_happening {analyze : Request → Option σ} {event : Event}
    (happens : s.step? analyze event = some t) :
    ∃ happening : Happening σ, s.happen? happening = some t := by
  cases event with
  | host operation => exact ⟨.host operation, happens⟩
  | pass uri i step =>
      obtain ⟨d, hfound, hpassed⟩ := Option.bind_eq_some_iff.mp happens
      obtain ⟨d', hstep, hafter⟩ := Option.bind_eq_some_iff.mp hpassed
      obtain ⟨event, -, hmove⟩ := exists_schedulerStep? hstep
      refine ⟨.scheduler uri event, ?_⟩
      rw [happen?, hfound, ← hafter, Option.bind_eq_bind, Option.bind_some, hmove]
      rfl
  | late uri k i step =>
      obtain ⟨closed, hacted, hafter⟩ := Option.bind_eq_some_iff.mp happens
      obtain ⟨event, hpass, hmoves⟩ := exists_actOnNth? (fun _ _ => exists_schedulerStep?) hacted
      refine ⟨.late uri k event, ?_⟩
      rw [happen?, hpass, ← hafter, hmoves]
      rfl

/-- So their runs are runs of this kind, with the same states. -/
theorem exists_run_of_step? {analyze : Request → Option σ} {log : List (Moment (Session σ) Event)}
    (run : Run (step? analyze) s log t) :
    ∃ log' : List (Moment (Session σ) (Happening σ)), Run happen? s log' t ∧
      log'.map (·.before) = log.map (·.before) := by
  induction run with
  | start => exact ⟨[], .start, rfl⟩
  | extend prior happens ih =>
      obtain ⟨log', hrun, hbefore⟩ := ih
      obtain ⟨happening, hhappens⟩ := exists_happening happens
      refine ⟨_, hrun.extend hhappens, ?_⟩
      rw [List.map_append, List.map_append, hbefore]
      rfl

/-! ## Open documents -/

/-- Opening a document is the first step of its scheduler. -/
theorem step_opening (s : Session σ) (caller : ThreadId) (uri : DocumentUri) (version : Version)
    (text : List Char) :
    (Scheduler.create s.settings.debounceMs.toNat).Step (.schedule ⟨uri, version, text⟩)
      (s.opening caller uri version text).scheduler :=
  .schedule _ rfl

theorem mem_documents_put {changed : OpenDocument σ} (mem : d ∈ (s.put changed).documents) :
    d = changed ∨ d ∈ s.documents := by
  obtain ⟨e, he, rfl⟩ := List.mem_map.mp mem
  split
  · exact .inl rfl
  · exact .inr he

/-- An open document was opened just now, or it was there before and its scheduler has made a step
at most. -/
theorem Happened.of_mem (happened : Happened s t) (mem : d ∈ t.documents) :
    (∃ caller uri version text, d = s.opening caller uri version text) ∨
      ∃ before ∈ s.documents, d.scheduler = before.scheduler ∨
        ∃ event, before.scheduler.Step event d.scheduler := by
  have stays (hd : d ∈ s.documents) : ∃ before ∈ s.documents, d.scheduler = before.scheduler ∨
      ∃ event, before.scheduler.Step event d.scheduler := ⟨d, hd, .inl rfl⟩
  cases happened with
  | operated stepped =>
      cases stepped with
      | unchanged => exact .inr (stays mem)
      | opened absent =>
          rcases List.mem_append.mp mem with hd | hd
          · exact .inr (stays hd)
          · exact .inl ⟨_, _, _, _, List.mem_singleton.mp hd⟩
      | operated found event_of hstep =>
          rcases mem_documents_put mem with rfl | hd
          · exact .inr ⟨_, List.mem_of_find?_eq_some found,
              OpenDocument.step?_scheduler_cases hstep⟩
          · exact .inr (stays hd)
      | closed found free => exact .inr (stays (List.mem_filter.mp mem).1)
  | moved found step =>
      rcases mem_documents_put mem with rfl | hd
      · exact .inr ⟨_, List.mem_of_find?_eq_some found, .inr ⟨_, step⟩⟩
      · exact .inr (stays hd)
  | late => exact .inr (stays mem)

/-- Open documents go on keeping track of their passes, as long as none is a round behind. -/
theorem Happened.tracks (happened : Happened s t) (tracks : ∀ d ∈ s.documents, d.Tracks)
    (inTime : ∀ d ∈ s.documents, d.scheduler.InTime) : ∀ d ∈ t.documents, d.Tracks := by
  intro d hd
  rcases happened.of_mem hd with
    ⟨caller, uri, version, text, rfl⟩ | ⟨before, hbefore, hsame | ⟨event, hstep⟩⟩
  · have hfirst := s.step_opening caller uri version text
    have hnumbered : (Scheduler.create s.settings.debounceMs.toNat : Scheduler σ).Numbered :=
      Scheduler.numbered_create _
    exact ⟨hfirst.numbered hnumbered, hfirst.tracking hnumbered
      (Scheduler.inTime_create _) (Scheduler.tracking_create _)⟩
  · rw [OpenDocument.Tracks, hsame]
    exact tracks before hbefore
  · exact (tracks before hbefore).step (inTime before hbefore) hstep

/-- Whatever happens, a document gets one more pass at most. -/
theorem Happened.size_passes_le (happened : Happened s t) {n : Nat}
    (few : ∀ d ∈ s.documents, d.scheduler.passes.size ≤ n) :
    ∀ d ∈ t.documents, d.scheduler.passes.size ≤ n + 1 := by
  have hadded {before after : Scheduler σ} {event : Scheduler.Event σ}
      (step : before.Step event after) (hbefore : before.passes.size ≤ n) :
      after.passes.size ≤ n + 1 := by
    rw [step.size_passes]
    exact Nat.add_le_add hbefore (by split <;> decide)
  intro d hd
  rcases happened.of_mem hd with
    ⟨caller, uri, version, text, rfl⟩ | ⟨before, hbefore, hsame | ⟨event, hstep⟩⟩
  · exact hadded (s.step_opening caller uri version text) (Nat.zero_le n)
  · rw [hsame]
    exact Nat.le_succ_of_le (few before hbefore)
  · exact hadded hstep (few before hbefore)

/-! ## Closed documents -/

/-- The documents that were closed, in the order of their closing. -/
def closings (s : Session σ) : List (OpenDocument σ) := s.closed.reverse

/-- What happens to a session either puts one more document to the closed ones, or lets the passes of
one of them make a step. -/
theorem Happened.closed_cases (happened : Happened s t) :
    (∃ d, t.closed = d :: s.closed) ∨
      List.Forall₂ (fun d d' => d.scheduler.Silent → d.Rests d') s.closed t.closed := by
  have alone : ∀ d : OpenDocument σ, d.scheduler.Silent → d.Rests d :=
    fun _ => OpenDocument.rests_of_silent
  cases happened with
  | operated stepped =>
      cases stepped with
      | unchanged | opened | operated => exact .inr (List.forall₂_same.mpr fun d _ => alone d)
      | closed found free => exact .inl ⟨_, rfl⟩
  | moved => exact .inr (List.forall₂_same.mpr fun d _ => alone d)
  | late quiet acted =>
      refine .inr (forall₂_of_actOnNth? alone ?_ acted)
      exact fun d d' happens silent => OpenDocument.rests_of_schedulerStep? silent quiet happens

/-- A closed document that is silent keeps its number, and shows nothing new. -/
theorem Happened.exists_closing (happened : Happened s t) {j : Nat}
    (found : s.closings[j]? = some d) (silent : d.scheduler.Silent) :
    ∃ d', t.closings[j]? = some d' ∧ d.Rests d' := by
  obtain ⟨hj, rfl⟩ := List.getElem?_eq_some_iff.mp found
  rcases happened.closed_cases with ⟨newest, hclosed⟩ | hrests
  · have hclosings : t.closings = s.closings ++ [newest] := by
      rw [closings, hclosed, List.reverse_cons, closings]
    refine ⟨_, ?_, OpenDocument.rests_of_silent silent⟩
    rw [hclosings, List.getElem?_append_left hj, found]
  · have hclosings := List.forall₂_reverse_iff.mpr hrests
    have hlt : j < t.closings.length := hclosings.length_eq ▸ hj
    exact ⟨t.closings[j], List.getElem?_eq_getElem hlt, hclosings.get hj hlt silent⟩

/-! ## Runs -/

variable {log later : List (Moment (Session σ) (Happening σ))} {settings : Settings}

theorem tracks_of_run (run : Run happen? (create settings) log s)
    (inTime : ∀ m ∈ log, ∀ d ∈ m.before.documents, d.scheduler.InTime) :
    ∀ d ∈ s.documents, d.Tracks := by
  induction run with
  | start => exact List.forall_mem_nil _
  | extend prior happens ih =>
      obtain ⟨hearlier, hlast⟩ := List.forall_mem_append.mp inTime
      exact (happened_of_happen? happens).tracks (ih hearlier)
        (hlast _ (List.mem_singleton_self _))

/-- A document has no more passes than there were happenings. -/
theorem size_passes_le_length (run : Run happen? (create settings) log s) :
    ∀ d ∈ s.documents, d.scheduler.passes.size ≤ log.length := by
  induction run with
  | start => exact List.forall_mem_nil _
  | extend prior happens ih =>
      rw [List.length_append, List.length_singleton]
      exact (happened_of_happen? happens).size_passes_le ih

/-- In a run of fewer than 2^64 happenings all passes are in time. -/
theorem inTime_of_run (run : Run happen? (create settings) log s) (few : log.length < 2 ^ 64) :
    ∀ m ∈ log, ∀ d ∈ m.before.documents, d.scheduler.InTime := by
  induction run with
  | start => exact List.forall_mem_nil _
  | extend prior happens ih =>
      rw [List.length_append, List.length_singleton] at few
      have hfew := Nat.lt_of_succ_lt few
      refine List.forall_mem_append.mpr ⟨ih hfew, List.forall_mem_singleton.mpr fun d hd => ?_⟩
      exact Scheduler.inTime_of_few (Nat.lt_of_le_of_lt (size_passes_le_length prior d hd) hfew)

/-- Whatever else happens to a session, a closed document that is silent shows nothing new. -/
theorem exists_closing_of_run (run : Run happen? s log t) {j : Nat}
    (found : s.closings[j]? = some d) (silent : d.scheduler.Silent) :
    ∃ d', t.closings[j]? = some d' ∧ d.Rests d' := by
  induction run with
  | start => exact ⟨d, found, OpenDocument.rests_of_silent silent⟩
  | extend prior happens ih =>
      obtain ⟨e, he, hrests⟩ := ih
      obtain ⟨d', hd', hgoesOn⟩ := (happened_of_happen? happens).exists_closing he hrests.silent
      exact ⟨d', hd', hrests.trans hgoesOn⟩

/-- The document that is closed gets the next number. -/
theorem closings_close (found : s.document? uri = some d) :
    (s.close uri).1.closings = s.closings ++ [d.cancel] := by
  rw [close_of_some found]
  exact List.reverse_cons

/-- **What was cancelled publishes nothing any more.** Cancelling a scheduler, or letting go of it,
leaves what is published as it is; and however the passes go on that were started before, whatever
their analyses come to, nothing is published and no generation made known until another pass is
scheduled. The same goes for a document that is closed, which nobody schedules any more: from then
on it shows what it showed before, while the session goes on.

Only passes whose analyses fail 2^64 passes late are left out. Every run of a scheduler with fewer
than 2^64 schedules is covered (`Scheduler.inTime_of_run`), as in the other theorems about its runs,
and every run of a session with fewer than 2^64 happenings (`inTime_of_run`). -/
theorem cancellation_is_final :
    (∀ (debounce : Nat) (log later : List (Moment (Scheduler σ) (Scheduler.Event σ)))
      (s stopped t : Scheduler σ), Run Scheduler.step? (.create debounce) log s →
      (∀ m ∈ log, m.before.InTime) → s.isLocked = false →
      (stopped = s.cancel ∨ stopped = s.dispose) → Run Scheduler.step? stopped later t →
      (∀ m ∈ later, m.event.isSchedule = false) → s.ShowsSame stopped ∧ s.ShowsSame t) ∧
    (∀ (settings : Settings) (log later : List (Moment (Session σ) (Happening σ)))
      (s t : Session σ) (uri : DocumentUri) (d : OpenDocument σ),
      Run happen? (create settings) log s →
      (∀ m ∈ log, ∀ d ∈ m.before.documents, d.scheduler.InTime) →
      s.document? uri = some d → d.scheduler.isLocked = false →
      Run happen? (s.close uri).1 later t →
      ∃ d', t.closings[s.closings.length]? = some d' ∧ d'.uri = uri ∧
        d.scheduler.ShowsSame d'.scheduler) := by
  refine ⟨?_, ?_⟩
  · intro debounce log later s stopped t run inTime free stops goesOn quiet
    obtain rfl : stopped = s.cancel := stops.elim id id
    have hsilent := (Scheduler.tracking_of_run run inTime).silent_cancel free
    exact ⟨s.showsSame_cancel, s.showsSame_cancel.trans (hsilent.of_run goesOn quiet).2⟩
  · intro settings log later s t uri d run inTime found free goesOn
    have hrests := (tracks_of_run run inTime d (List.mem_of_find?_eq_some found)).rests_cancel free
    have hclosed : (s.close uri).1.closings[s.closings.length]? = some d.cancel := by
      rw [closings_close found, List.getElem?_concat_length]
    obtain ⟨d', hd', hgoesOn⟩ := exists_closing_of_run goesOn hclosed hrests.silent
    have hrests' := hrests.trans hgoesOn
    exact ⟨d', hd', hrests'.uri.trans (uri_of_document? found), hrests'.showsSame⟩

/-- A pass is analysing when it is cancelled, and another one when its document is closed. Both come
to a snapshot afterwards, and the document is opened again meanwhile. Neither snapshot is shown. -/
theorem late_snapshots_not_shown :
    (∃ (log later : List (Moment (Scheduler Nat) (Scheduler.Event Nat))) (s t : Scheduler Nat),
      Run Scheduler.step? (.create 0) log s ∧ (∀ m ∈ log, m.before.InTime) ∧
        s.isLocked = false ∧ s.isPending = true ∧ Run Scheduler.step? s.cancel later t ∧
        (∀ m ∈ later, m.event.isSchedule = false) ∧
        t.passes.toList.map (·.stage) = [.ended .published, .ended .discarded] ∧
        s.latest? = some 10 ∧ s.ShowsSame t) ∧
    ∃ (log later : List (Moment (Session Nat) (Happening Nat))) (s t : Session Nat)
      (d d' : OpenDocument Nat), Run happen? (create .default) log s ∧
        (∀ m ∈ log, ∀ d ∈ m.before.documents, d.scheduler.InTime) ∧
        s.document? "a" = some d ∧ d.scheduler.isLocked = false ∧
        Run happen? (s.close "a").1 later t ∧ t.closings[0]? = some d' ∧
        d'.scheduler.passes.toList.map (·.stage) = [.ended .published, .ended .discarded] ∧
        d.latest? = some 10 ∧ d.scheduler.ShowsSame d'.scheduler := by
  obtain ⟨hscheduler, hsession⟩ := @cancellation_is_final Nat
  refine ⟨?_, ?_⟩
  · have hplayed : ∃ log later s t,
        Run.play? Scheduler.step? (.create 0 : Scheduler Nat)
          [.schedule ⟨"a", 1, []⟩, .start 0, .answer 0 (some 10), .finish 0, .complete 0,
            .schedule ⟨"a", 2, []⟩, .start 1] = some (log, s) ∧
        Run.play? Scheduler.step? s.cancel [.answer 1 (some 20), .finish 1] = some (later, t) ∧
        s.passes.size = 2 ∧ s.isLocked = false ∧ s.isPending = true ∧
        (later.all fun m => !m.event.isSchedule) = true ∧
        t.passes.toList.map (·.stage) = [.ended .published, .ended .discarded] ∧
        s.latest? = some 10 :=
      ⟨_, _, _, _, rfl, rfl, rfl, rfl, rfl, rfl, rfl, rfl⟩
    obtain ⟨log, later, s, t, hlog, hlater, hsize, hfree, hpending, hevents, hstages, hlatest⟩ :=
      hplayed
    have run := Run.of_play? hlog
    have goesOn := Run.of_play? hlater
    have inTime := Scheduler.inTime_of_run run (by rw [hsize]; decide)
    have quiet : ∀ m ∈ later, m.event.isSchedule = false := by simpa using hevents
    exact ⟨log, later, s, t, run, inTime, hfree, hpending, goesOn, quiet, hstages, hlatest,
      (hscheduler 0 log later s _ t run inTime hfree (.inl rfl) goesOn quiet).2⟩
  · have hplayed : ∃ log later s t d,
        Run.play? happen? (create .default)
          [.host (.openDocument ⟨0⟩ "a" 1 []), .scheduler "a" (.start 0),
            .scheduler "a" (.answer 0 (some 10)), .scheduler "a" (.finish 0),
            .scheduler "a" (.complete 0), .host (.reset ⟨0⟩ "a" 2 []),
            .scheduler "a" (.start 1)] = some (log, s) ∧
        Run.play? happen? (s.close "a").1
          [.late "a" 0 (.answer 1 (some 20)), .host (.openDocument ⟨0⟩ "a" 1 []),
            .scheduler "a" (.start 0), .late "a" 0 (.finish 1)] = some (later, t) ∧
        log.length = 7 ∧ s.document? "a" = some d ∧ d.scheduler.isLocked = false ∧
        d.latest? = some 10 ∧ s.closings.length = 0 ∧
        (t.closings[0]?.map fun d => d.scheduler.passes.toList.map (·.stage)) =
          some [.ended .published, .ended .discarded] :=
      ⟨_, _, _, _, _, rfl, rfl, rfl, rfl, rfl, rfl, rfl, rfl⟩
    obtain ⟨log, later, s, t, d, hlog, hlater, hlength, hfound, hfree, hlatest, hnone, hstages⟩ :=
      hplayed
    have run := Run.of_play? hlog
    have goesOn := Run.of_play? hlater
    have inTime := inTime_of_run run (by rw [hlength]; decide)
    obtain ⟨d', hd', -, hsame⟩ :=
      hsession .default log later s t "a" d run inTime hfound hfree goesOn
    rw [hnone] at hd'
    rw [hd', Option.map_some, Option.some.injEq] at hstages
    exact ⟨log, later, s, t, d, d', run, inTime, hfound, hfree, goesOn, hd', hstages, hlatest, hsame⟩

end Session

end CodeInsight

/-
# Documents that are opened again

Whatever a document shows comes from passes of its own, and every one of these was started
by an operation since the document was opened. A document that is closed takes its passes
with it, so one that is opened at the same address later knows nothing of them, even while
they still run.
-/

import CodeInsight.Proofs.Reanalysis.Provenance
import CodeInsight.Proofs.Session.Isolation
import CodeInsight.Proofs.Session.SchedulerRun

namespace CodeInsight

variable {σ : Type} {analyze : Request → Option σ}

/-- An analysis that ends when its pass makes a step ends as its request has it. -/
theorem Scheduler.follows_passEvent? {s : Scheduler σ} {i : Nat} {step : PassStep}
    {event : Event σ} (happens : s.passEvent? analyze i step = some event) :
    ∀ answer ∈ event.answer?, ∀ p ∈ s.passes[answer.1]?, analyze p.request = some answer.2 := by
  cases step with
  | answer =>
      obtain ⟨pass, hfound, rfl⟩ := Option.map_eq_some_iff.mp happens
      intro answer hanswer p hp
      cases hanalyzed : analyze pass.request with
      | none =>
          rw [hanalyzed] at hanswer
          cases hanswer
      | some snapshot =>
          rw [hanalyzed] at hanswer
          cases hanswer
          cases hfound.symm.trans hp
          exact hanalyzed
  | revoke | delay | start | abandon | finish | complete =>
      cases happens
      exact nofun

namespace Session

/-! ## Schedulers with analyses of their own -/

/-- All snapshots that a scheduler has come from analyses of requests to it. -/
def OwnAnalyses (analyze : Request → Option σ) (scheduler : Scheduler σ) : Prop :=
  ∃ debounce log, Run Scheduler.step? (.create debounce) log scheduler ∧
    Scheduler.AnswersAgree (fun request snapshot => analyze request = some snapshot) log

namespace OwnAnalyses

variable {scheduler later : Scheduler σ} {d after : OpenDocument σ}

theorem create (debounce : Nat) : OwnAnalyses analyze (.create debounce) :=
  ⟨debounce, [], .start, nofun⟩

theorem exists_request_of_latest? (own : OwnAnalyses analyze scheduler) {snapshot : σ}
    (newest : scheduler.latest? = some snapshot) :
    ∃ request ∈ scheduler.requests, analyze request = some snapshot := by
  obtain ⟨debounce, log, run, agree⟩ := own
  obtain ⟨p, hproduced, hagrees⟩ := Scheduler.exists_producer?_of_latest? run agree newest
  obtain ⟨i, q, hq, hleads, -⟩ :=
    Scheduler.rank_of_published run (Scheduler.mem_publications_of_producer? hproduced)
  refine ⟨p.request, List.mem_map.mpr ⟨q, ?_, hleads.request⟩, hagrees⟩
  exact Array.mem_toList_iff.mpr (Array.mem_of_getElem? hq)

theorem extend (own : OwnAnalyses analyze scheduler) {event : Scheduler.Event σ}
    (happens : scheduler.step? event = some later)
    (follows : ∀ answer ∈ event.answer?, ∀ p ∈ scheduler.passes[answer.1]?,
      analyze p.request = some answer.2) :
    OwnAnalyses analyze later := by
  obtain ⟨debounce, log, run, agree⟩ := own
  refine ⟨debounce, _, run.extend happens, ?_⟩
  exact Scheduler.answersAgree_append.mpr ⟨agree, List.forall_mem_singleton.mpr follows⟩

/-- A step of its document keeps the analyses a scheduler's own, if those in the background end as
their requests have it. -/
theorem step (own : OwnAnalyses analyze d.scheduler) {event : OpenDocument.Event σ}
    (happens : d.step? event = some after)
    (follows : ∀ e, event = .background e → ∀ answer ∈ e.answer?,
      ∀ p ∈ d.scheduler.passes[answer.1]?, analyze p.request = some answer.2) :
    OwnAnalyses analyze after.scheduler := by
  cases hseen : OpenDocument.schedulerEvent? ⟨d, event, after⟩ with
  | none =>
      rw [OpenDocument.step?_scheduler_of_none happens hseen]
      exact own
  | some e =>
      refine own.extend (OpenDocument.step?_scheduler happens hseen) ?_
      cases event with
      | background event =>
          cases hseen
          exact follows _ rfl
      | apply | reset =>
          obtain ⟨-, hschedule⟩ := Option.ite_none_right_eq_some.mp hseen
          cases hschedule
          exact nofun

end OwnAnalyses

/-! ## The open document at an address -/

variable {s after t : Session σ} {uri : DocumentUri} {event : Event}
  {log : List (Moment (Session σ) Event)}

theorem document?_of_event_ne (happens : s.step? analyze event = some after)
    (other : event.uri ≠ uri) : after.document? uri = s.document? uri := by
  have hunconcerned : concerns uri 0 ⟨s, event, after⟩ = false := by
    rw [concerns, decide_eq_false other, Bool.false_and]
  have hsame := congrArg (·.document? uri) (only_of_step? happens hunconcerned)
  simpa using hsame

/-- The host asks at a moment for an analysis of the document that is open at an address. -/
def RequestedAt (uri : DocumentUri) (request : Request) (m : Moment (Session σ) Event) : Prop :=
  (∃ operation, m.event = .host operation ∧ operation.uri = uri) ∧
    ∃ d, m.after.document? uri = some d ∧ d.request = request

/-- A step of a document that comes from an operation adds the request that it makes. -/
theorem requests_operated {d d' : OpenDocument σ} {docEvent : OpenDocument.Event σ}
    (happens : d.step? docEvent = some d') {request : Request}
    (requested : request ∈ d'.scheduler.requests) :
    request ∈ d.scheduler.requests ∨ d'.request = request := by
  rw [OpenDocument.step?_requests happens, List.mem_append] at requested
  refine requested.imp_right fun hlast => ?_
  split at hlast
  · exact (List.mem_singleton.mp hlast).symm
  · cases hlast

/-- The document that is open at an address has snapshots of its own analyses only, and was asked
for all of these at moments of the log. -/
def OwnSince (analyze : Request → Option σ) (uri : DocumentUri)
    (log : List (Moment (Session σ) Event)) (s : Session σ) : Prop :=
  ∀ d, s.document? uri = some d → OwnAnalyses analyze d.scheduler ∧
    ∀ request ∈ d.scheduler.requests, ∃ m ∈ log, RequestedAt uri request m

namespace OwnSince

theorem append (own : OwnSince analyze uri log s) (m : Moment (Session σ) Event) :
    OwnSince analyze uri (log ++ [m]) s := by
  intro d hfound
  obtain ⟨hown, hrequests⟩ := own d hfound
  refine ⟨hown, fun request hrequest => ?_⟩
  obtain ⟨n, hn, hrequested⟩ := hrequests request hrequest
  exact ⟨n, List.mem_append_left _ hn, hrequested⟩

theorem congr (own : OwnSince analyze uri log s) (same : after.document? uri = s.document? uri) :
    OwnSince analyze uri log after :=
  fun d hfound => own d (same ▸ hfound)

/-- After an operation its document has what it had before, and what the operation asked for. -/
theorem of_requests {operation : Operation} {d : OpenDocument σ} (about : operation.uri = uri)
    (found : after.document? uri = some d) (own : OwnAnalyses analyze d.scheduler)
    (requests : ∀ request ∈ d.scheduler.requests,
      (∃ m ∈ log, RequestedAt uri request m) ∨ d.request = request) :
    OwnSince analyze uri (log ++ [⟨s, .host operation, after⟩]) after := by
  intro e hfound
  cases found.symm.trans hfound
  refine ⟨own, fun request hrequest => ?_⟩
  obtain ⟨m, hm, hrequested⟩ | hlast := requests request hrequest
  · exact ⟨m, List.mem_append_left _ hm, hrequested⟩
  · exact ⟨_, List.mem_append_right _ (List.mem_singleton_self _), ⟨operation, rfl, about⟩, d,
      found, hlast⟩

theorem step (own : OwnSince analyze uri log s) (happens : s.step? analyze event = some after) :
    OwnSince analyze uri (log ++ [⟨s, event, after⟩]) after := by
  by_cases huri : event.uri = uri
  · subst uri
    cases stepped_of_step? happens with
    | unchanged => exact own.append _
    | late => exact own.append _
    | @opened caller uri version text absent =>
        have hfound : document? { s with
            documents := s.documents ++ [s.opening caller uri version text] } uri =
              some (s.opening caller uri version text) := by
          have huri : (s.opening caller uri version text).uri = uri := rfl
          rw [document?, List.find?_append, ← document?, absent]
          simp [huri]
        have hscheduled : (Scheduler.create s.settings.debounceMs.toNat).step?
            (.schedule ⟨uri, version, text⟩) =
              some (s.opening caller uri version text).scheduler := rfl
        refine of_requests rfl hfound ((OwnAnalyses.create _).extend hscheduled ?_) ?_
        · intro answer hanswer
          cases hanswer
        · intro request hrequest
          rw [opening, OpenDocument.requests_scheduleAnalysis] at hrequest
          exact .inr (List.mem_singleton.mp hrequest).symm
    | @operated operation d d' docEvent found event_of hstep =>
        have hfound := document?_put_of_some found (OpenDocument.step?_uri hstep)
        obtain ⟨hown, hrequests⟩ := own d found
        refine of_requests rfl hfound (hown.step hstep ?_) fun request hrequest => ?_
        · -- No operation is an event of the background.
          rintro e rfl
          cases operation <;> cases event_of
        · exact (requests_operated hstep hrequest).imp_left (hrequests request)
    | @closed uri d found free =>
        intro e hfound
        have hmem := List.mem_of_find?_eq_some hfound
        have hother : e.uri ≠ uri := by simpa using (List.mem_filter.mp hmem).2
        exact absurd (uri_of_document? hfound) hother
    | @passed uri d d' i step found hpassed =>
        obtain ⟨e, hevent, hstep⟩ := Option.bind_eq_some_iff.mp hpassed
        have hfound := document?_put_of_some found (uri_of_passStep? hpassed)
        obtain ⟨hown, hrequests⟩ := own d found
        refine append ?_ _
        intro f hf
        cases hfound.symm.trans hf
        refine ⟨hown.step hstep ?_, ?_⟩
        · rintro e' ⟨⟩
          exact Scheduler.follows_passEvent? hevent
        · rw [OpenDocument.step?_requests hstep]
          simpa [OpenDocument.callsForAnalysis] using hrequests
  · exact (own.congr (document?_of_event_ne happens huri)).append _

end OwnSince

/-- From a moment on at which no document is open at an address, a document that is open there has
snapshots of its own analyses only, and was asked for all of these since. -/
theorem ownSince_of_run (run : Run (step? analyze) s log t) (closed : s.document? uri = none) :
    OwnSince analyze uri log t := by
  induction run with
  | start =>
      intro d hfound
      cases closed.symm.trans hfound
  | extend prior happens ih => exact ih.step happens

/-! ## Runs of sessions -/

theorem settings_of_run (run : Run (step? analyze) s log t) : t.settings = s.settings := by
  refine (run.invariant (P := fun t => t.settings = s.settings) ?_ rfl).1
  intro u event v happens hsettings
  cases stepped_of_step? happens with
  | unchanged | opened | operated | closed | passed | late => exact hsettings

/-- **Documents of a session do not interfere.** In any run of a new session, with analyses that
depend on their requests alone, the document with an address is at every moment what it is in the
run in which only the events about this address happen, and the host is answered alike. Operations
that open what is open, or need what is not open, change nothing.

Where no document is open at the address, as when it has just been closed, everything starts anew:
what follows is what happens in a new session by the events about documents opened since. The
snapshots that are shown come from analyses that operations have asked for since. -/
theorem documents_do_not_interfere {settings : Settings}
    (run : Run (step? analyze) (create settings) log t) (uri : DocumentUri) :
    (∃ alone u, Run (step? analyze) (create settings) alone u ∧
      List.Forall₂ (SameAt uri) (log.filter (·.event.uri = uri)) alone ∧
      u.document? uri = t.document? uri) ∧
    (∀ m ∈ log, ∀ operation, m.event = .host operation →
      operation.opens = (m.before.document? operation.uri).isSome → m.after = m.before) ∧
    (∀ earlier later s, log = earlier ++ later → Run (step? analyze) (create settings) earlier s →
      Run (step? analyze) s later t → s.document? uri = none →
      (∃ alone u, Run (step? analyze) (create settings) alone u ∧
        List.Forall₂ (SameAt uri) (later.filter (concerns uri (s.closedOf uri).length)) alone ∧
        u.document? uri = t.document? uri) ∧
      ∀ d, t.document? uri = some d →
        (∀ request ∈ d.scheduler.requests, ∃ m ∈ later, RequestedAt uri request m) ∧
        ∀ snapshot, t.latest uri = .ok (some snapshot) →
          ∃ request ∈ d.scheduler.requests, analyze request = some snapshot) := by
  refine ⟨?_, ?_, ?_⟩
  · obtain ⟨alone, halone, hsame⟩ := run_only run (Nat.zero_le _)
    have hconcerns : log.filter (concerns uri 0) = log.filter (·.event.uri = uri) :=
      List.filter_congr fun m hm => concerns_of_run run hm
    rw [hconcerns] at hsame
    exact ⟨alone, _, halone, hsame, document?_only ..⟩
  · intro m hm operation hevent hrefused
    have happens := run.happens_of_mem hm
    rw [hevent] at happens
    obtain ⟨-, happens⟩ := Option.ite_none_left_eq_some.mp happens
    rw [← Option.some.inj happens, perform_of_refused hrefused]
  · intro earlier later s _ before goesOn hclosed
    refine ⟨?_, fun d hfound => ?_⟩
    · obtain ⟨alone, halone, hsame⟩ := run_only goesOn (Nat.le_refl _)
      rw [only_of_absent hclosed, settings_of_run before] at halone
      exact ⟨alone, _, halone, hsame, document?_only ..⟩
    · obtain ⟨hown, hrequests⟩ := ownSince_of_run goesOn hclosed d hfound
      refine ⟨hrequests, fun snapshot hlatest => hown.exists_request_of_latest? ?_⟩
      rw [latest, document, hfound] at hlatest
      exact Except.ok.inj hlatest

/-- A document is closed while its analysis runs, and opened again. Its old pass comes to an end,
and so does the pass of another document, before the new pass publishes. -/
theorem reopened_document_starts_anew :
    ∃ (earlier later : List (Moment (Session Request) Event)) (s t : Session Request),
      Run (step? some) (create .default) earlier s ∧ Run (step? some) s later t ∧
        s.document? "a" = none ∧ (s.closedOf "a").length = 1 ∧ later.length = 10 ∧
        t.latest "a" = .ok (some ⟨"a", 1, ['n', 'e', 'w']⟩) ∧
        ∃ alone u, Run (step? some) (create .default) alone u ∧ alone.length = 6 ∧
          u.document? "a" = t.document? "a" := by
  have hplayed : ∃ earlier later s t,
      Run.play? (step? some) (create .default)
        [.host (.openDocument ⟨0⟩ "a" 1 ['o', 'l', 'd']), .pass "a" 0 .start,
          .host (.openDocument ⟨0⟩ "b" 1 []), .pass "b" 0 .start, .host (.close "a")] =
            some (earlier, s) ∧
      Run.play? (step? some) s
        [.host (.openDocument ⟨0⟩ "a" 1 ['n', 'e', 'w']), .late "a" 0 0 .answer,
          .pass "a" 0 .start, .pass "b" 0 .answer, .pass "a" 0 .answer, .late "a" 0 0 .finish,
          .pass "a" 0 .finish, .pass "b" 0 .finish, .pass "a" 0 .complete,
          .host (.latest "a")] = some (later, t) ∧
      s.document? "a" = none ∧ (s.closedOf "a").length = 1 ∧ later.length = 10 ∧
      t.latest "a" = .ok (some ⟨"a", 1, ['n', 'e', 'w']⟩) ∧
      (later.filter (concerns "a" 1)).length = 6 :=
    ⟨_, _, _, _, rfl, rfl, rfl, rfl, rfl, rfl, rfl⟩
  obtain ⟨earlier, later, s, t, hearlier, hlater, hclosed, hcount, hlength, hlatest, hconcerned⟩ :=
    hplayed
  have before := Run.of_play? hearlier
  have goesOn := Run.of_play? hlater
  obtain ⟨-, -, hreopened⟩ := documents_do_not_interfere (before.append goesOn) "a"
  obtain ⟨⟨alone, u, halone, hsame, hdocument⟩, -⟩ :=
    hreopened earlier later s rfl before goesOn hclosed
  rw [hcount] at hsame
  exact ⟨earlier, later, s, t, before, goesOn, hclosed, hcount, hlength, hlatest, alone, u, halone,
    hsame.length_eq.symm.trans hconcerned, hdocument⟩

end Session

end CodeInsight

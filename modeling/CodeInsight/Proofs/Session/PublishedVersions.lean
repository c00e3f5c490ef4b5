/-
# Published versions follow the buffer

As long as the host sends edits and never the whole text, the versions of the requests
that are handed over increase, and the buffer is at the last of them or further on.
Publications come in the order of the requests. So what is published moves forward in
versions as well and stays at or behind the buffer, however late passes come to an end
and whatever becomes of the edits in between.

Versions have 32 bits and each request takes a new one, so that there are never as many
requests as would make the generations come around.
-/

import CodeInsight.Proofs.Reanalysis.Provenance
import CodeInsight.Proofs.Session.SchedulerRun

namespace CodeInsight

namespace OpenDocument

variable {σ : Type} {opened d e after : OpenDocument σ} {event : Event σ}
  {log later : List (Moment (OpenDocument σ) (Event σ))}

/-- Whether an event sends no whole text: batches of spans are applied, or something happens in the
background. -/
def Event.isIncremental : Event σ → Bool
  | apply _ batches => batches.all fun batch => !batch.hasWhole
  | reset .. => false
  | background _ => true

/-- A step that sends no whole text never moves the version back, and moves it forward if it calls
for an analysis. -/
theorem step?_version (happens : d.step? event = some after)
    (incremental : event.isIncremental = true) (baseline : d.buffer.hasBaseline = true) :
    d.buffer.version ≤ after.buffer.version ∧
      (callsForAnalysis ⟨d, event, after⟩ = true → d.buffer.version < after.buffer.version) := by
  cases event with
  | apply caller batches =>
      have hspans : ∀ batch ∈ batches, batch.hasWhole = false := by
        simpa [Event.isIncremental] using incremental
      rw [eq_of_unlessLocked happens, buffer_apply]
      refine ⟨Buffer.version_le_progress baseline hspans, ?_⟩
      intro hcalls
      exact Buffer.version_lt_progress baseline hspans (Bool.and_eq_true_iff.mp hcalls).1
  | reset caller version text => cases incremental
  | background event =>
      obtain ⟨scheduler, -, -, rfl⟩ := step?_background happens
      exact ⟨Int32.le_refl _, fun hcalls => nomatch hcalls⟩

/-- The requests that were handed over carry increasing versions from zero on, up to that of the
buffer. So there are no more of them than versions. -/
structure VersionsIncrease (d : OpenDocument σ) : Prop where
  baseline : d.buffer.hasBaseline = true
  increasing : (d.scheduler.requests.map (·.version)).Pairwise (· < ·)
  upTo : ∀ request ∈ d.scheduler.requests, request.version ≤ d.buffer.version
  count : (d.scheduler.requests.length : Int) ≤ d.buffer.version.toInt + 1

namespace VersionsIncrease

/-- The version may move forward without a request. -/
theorem of_quiet (increase : d.VersionsIncrease)
    (requests : after.scheduler.requests = d.scheduler.requests)
    (forward : d.buffer.version ≤ after.buffer.version) : after.VersionsIncrease where
  baseline := Buffer.hasBaseline_of_le increase.baseline forward
  increasing := by
    rw [requests]
    exact increase.increasing
  upTo := by
    rw [requests]
    exact fun request hrequest => Int32.le_trans (increase.upTo request hrequest) forward
  count := by
    have hcount := increase.count
    rw [Int32.le_iff_toInt_le] at forward
    rw [requests]
    omega

/-- A request for the text as it is may be handed over once the version has moved forward. -/
theorem of_request (increase : d.VersionsIncrease)
    (requests : after.scheduler.requests = d.scheduler.requests ++ [after.request])
    (forward : d.buffer.version < after.buffer.version) : after.VersionsIncrease where
  baseline := Buffer.hasBaseline_of_le increase.baseline (Int32.le_of_lt forward)
  increasing := by
    rw [requests, List.map_append, List.pairwise_append]
    refine ⟨increase.increasing, List.pairwise_singleton _ _, ?_⟩
    intro version hversion last hlast
    obtain ⟨request, hrequest, rfl⟩ := List.mem_map.mp hversion
    cases List.mem_singleton.mp hlast
    exact Int32.lt_of_le_of_lt (increase.upTo request hrequest) forward
  upTo := by
    rw [requests, List.forall_mem_append, List.forall_mem_singleton]
    refine ⟨?_, Int32.le_refl _⟩
    intro request hrequest
    exact Int32.le_trans (increase.upTo request hrequest) (Int32.le_of_lt forward)
  count := by
    have hcount := increase.count
    rw [Int32.lt_iff_toInt_lt] at forward
    rw [requests, List.length_append, List.length_singleton]
    omega

theorem of_step (increase : d.VersionsIncrease) (happens : d.step? event = some after)
    (incremental : event.isIncremental = true) : after.VersionsIncrease := by
  obtain ⟨hle, hlt⟩ := step?_version happens incremental increase.baseline
  have hrequests := step?_requests happens
  cases hcalls : callsForAnalysis ⟨d, event, after⟩ with
  | false =>
      rw [hcalls, if_neg Bool.false_ne_true, List.append_nil] at hrequests
      exact increase.of_quiet hrequests hle
  | true =>
      rw [hcalls, if_pos rfl] at hrequests
      exact increase.of_request hrequests (hlt hcalls)

theorem of_run (increase : opened.VersionsIncrease) (run : Run step? opened log d)
    (incremental : ∀ m ∈ log, m.event.isIncremental = true) : d.VersionsIncrease := by
  induction run with
  | start => exact increase
  | extend prior happens ih =>
      obtain ⟨hprior, hlast⟩ := List.forall_mem_append.mp incremental
      exact (ih hprior).of_step happens (hlast _ (List.mem_singleton_self _))

/-- The generations have not come around. -/
theorem size_passes_lt (increase : d.VersionsIncrease) : d.scheduler.passes.size < 2 ^ 64 := by
  have hcount := increase.count
  have hversion := d.buffer.version.toInt_lt
  rw [Scheduler.length_requests] at hcount
  omega

/-- Of two requests, the one that was handed over no later has no greater version. -/
theorem version_le (increase : d.VersionsIncrease) {i j : Nat} {request other : Request}
    (found : d.scheduler.requests[i]? = some request)
    (foundOther : d.scheduler.requests[j]? = some other) (hij : i ≤ j) :
    request.version ≤ other.version := by
  obtain ⟨hi, rfl⟩ := List.getElem?_eq_some_iff.mp found
  obtain ⟨hj, rfl⟩ := List.getElem?_eq_some_iff.mp foundOther
  rcases Nat.eq_or_lt_of_le hij with rfl | hlt
  · exact Int32.le_refl _
  · exact Int32.le_of_lt
      (List.pairwise_iff_getElem.mp (List.pairwise_map.mp increase.increasing) i j hi hj hlt)

end VersionsIncrease

/-! ## From the opening on -/

variable {caller : ThreadId} {uri : DocumentUri} {version : Version} {text : List Char}
  {encoding : ColumnEncoding} {debounce : Nat} {versionOf : σ → Version}

/-- A document that is opened has handed over the one request for its first text. -/
theorem versionsIncrease_of_opening
    (opening : create caller uri version text encoding (.create debounce) = .ok opened)
    (baseline : 0 ≤ version) : opened.VersionsIncrease := by
  rw [create_eq] at opening
  cases opening
  have hrequests : (scheduleAnalysis ⟨uri, ⟨text, version, caller, encoding⟩, .create debounce,
      0⟩ : OpenDocument σ).scheduler.requests = [⟨uri, version, text⟩] :=
    requests_scheduleAnalysis _
  refine ⟨decide_eq_true baseline, ?_, ?_, ?_⟩
  · rw [hrequests]
    exact List.pairwise_singleton _ _
  · rw [hrequests, List.forall_mem_singleton]
    exact Int32.le_refl _
  · have hbaseline : 0 ≤ version.toInt := Int32.le_iff_toInt_le.mp baseline
    rw [hrequests, List.length_singleton]
    change (1 : Int) ≤ version.toInt + 1
    omega

/-- The newest snapshot is at the version of the buffer or behind it. -/
theorem latest_version_le_buffer (increase : d.VersionsIncrease)
    {log : List (Moment (Scheduler σ) (Scheduler.Event σ))}
    (run : Run Scheduler.step? (.create debounce) log d.scheduler)
    (stamped : Scheduler.AnswersAgree (fun request snapshot => versionOf snapshot = request.version)
      log) {snapshot : σ} (newest : d.latest? = some snapshot) :
    versionOf snapshot ≤ d.buffer.version := by
  obtain ⟨p, hp, hversion⟩ := Scheduler.exists_producer?_of_latest? run stamped newest
  obtain ⟨i, -, hi⟩ := Scheduler.getElem?_requests_of_published run increase.size_passes_lt
    (Scheduler.mem_publications_of_producer? hp)
  rw [hversion]
  exact increase.upTo _ (List.mem_of_getElem? hi)

/-- Once there is a newest snapshot there always is one, of the same version or a greater one. -/
theorem exists_latest_of_append (increase : e.VersionsIncrease)
    {log later : List (Moment (Scheduler σ) (Scheduler.Event σ))}
    (run : Run Scheduler.step? (.create debounce) log d.scheduler)
    (goesOn : Run Scheduler.step? d.scheduler later e.scheduler)
    (stamped : Scheduler.AnswersAgree (fun request snapshot => versionOf snapshot = request.version)
      (log ++ later)) {old : σ} (newest : d.latest? = some old) :
    ∃ new, e.latest? = some new ∧ versionOf old ≤ versionOf new := by
  have hrun := run.append goesOn
  have few := increase.size_passes_lt
  have ordered := Scheduler.publications_pairwise hrun (Scheduler.numbered_create debounce) few
  obtain ⟨p, hp, hold⟩ := Scheduler.exists_producer?_of_latest? run
    (Scheduler.answersAgree_append.mp stamped).1 newest
  obtain ⟨q, hq, hle⟩ := Scheduler.exists_producer_of_append ordered hp
  obtain ⟨new, hlatest, hnew⟩ := Scheduler.exists_latest?_of_producer? hrun stamped hq
  refine ⟨new, hlatest, ?_⟩
  -- The generations tell the places among the requests, and versions increase along these.
  have hpublished : p ∈ Scheduler.publications (log ++ later) := by
    rw [Scheduler.publications_append]
    exact List.mem_append_left _ (Scheduler.mem_publications_of_producer? hp)
  obtain ⟨i, hi, hfound⟩ := Scheduler.getElem?_requests_of_published hrun few hpublished
  obtain ⟨j, hj, hfoundLater⟩ := Scheduler.getElem?_requests_of_published hrun few
    (Scheduler.mem_publications_of_producer? hq)
  rw [UInt64.le_iff_toNat_le] at hle
  rw [hold, hnew]
  exact increase.version_le hfound hfoundLater (by omega)

/-- **Published versions follow the buffer.** A document is opened at a version from zero on, edits
of spans arrive in any order, with gaps and refusals, and passes come to an end in any way, each
with a snapshot that carries the version of its request. Then at every moment the newest snapshot is
at the version of the buffer or behind it, and at every later moment the newest snapshot is at the
same version or further on. -/
theorem published_versions_follow_buffer
    (opening : create caller uri version text encoding (.create debounce) = .ok opened)
    (baseline : 0 ≤ version) (run : Run step? opened log d) (goesOn : Run step? d later e)
    (incremental : ∀ m ∈ log ++ later, m.event.isIncremental = true)
    (stamped : Scheduler.AnswersAgree (fun request snapshot => versionOf snapshot = request.version)
      (schedulerLog (log ++ later))) :
    (∀ snapshot ∈ d.latest?, versionOf snapshot ≤ d.buffer.version) ∧
      ∀ old ∈ d.latest?, ∃ new ∈ e.latest?, versionOf old ≤ versionOf new := by
  obtain ⟨hlog, hlater⟩ := List.forall_mem_append.mp incremental
  have hd : d.VersionsIncrease := (versionsIncrease_of_opening opening baseline).of_run run hlog
  have he : e.VersionsIncrease := hd.of_run goesOn hlater
  have hrun := schedulerRun_of_create opening run
  have hstamped : Scheduler.AnswersAgree
      (fun request snapshot => versionOf snapshot = request.version)
      (schedulerLogFromOpening debounce opened log ++ schedulerLog later) := by
    rw [schedulerLog_append] at stamped
    exact List.forall_mem_cons.mpr ⟨nofun, stamped⟩
  constructor
  · intro snapshot newest
    exact latest_version_le_buffer hd hrun (Scheduler.answersAgree_append.mp hstamped).1 newest
  · intro old newest
    exact exists_latest_of_append he hrun (schedulerRun goesOn) hstamped newest

/-- The pass of the opening comes to an end when the first edit has superseded it, and is discarded.
That edit arrives a second time, and another one with a gap before it. The pass of the first edit
publishes version 1. Then a batch is refused for its order, a jump to version 3 is applied, and its
pass publishes in turn. -/
theorem published_versions_with_late_passes :
    ∃ (opened d e : OpenDocument Request)
      (log later : List (Moment (OpenDocument Request) (Event Request))),
      create ⟨0⟩ "doc" 0 ['a', 'b'] .utf8 (.create 0) = .ok opened ∧ (0 : Version) ≤ 0 ∧
        Run step? opened log d ∧ Run step? d later e ∧
        (∀ m ∈ log ++ later, m.event.isIncremental = true) ∧
        Scheduler.AnswersAgree (fun request snapshot => snapshot.version = request.version)
          (schedulerLog (log ++ later)) ∧
        log.map refusal? = [none, none, none, none, none, some (.missingVersions 1 5), none, none,
          none] ∧
        later.map refusal? = [none, some (.outOfOrder 0 1), none, none, none, none] ∧
        d.latest? = some ⟨"doc", 1, ['x', 'a', 'b']⟩ ∧
        e.latest? = some ⟨"doc", 3, ['y', 'a', 'b']⟩ ∧
        (∀ snapshot ∈ d.latest?, snapshot.version ≤ d.buffer.version) ∧
        ∀ old ∈ d.latest?, ∃ new ∈ e.latest?, old.version ≤ new.version := by
  have hplayed : ∃ opened d e log later,
      create ⟨0⟩ "doc" 0 ['a', 'b'] .utf8 (.create 0 : Scheduler Request) = .ok opened ∧
      Run.play? step? opened
        [.background (.start 0), .apply ⟨0⟩ [⟨0, 1, [.replace ⟨⟨0, 0⟩, ⟨0, 0⟩⟩ ['x']]⟩],
          .background (.answer 0 (some ⟨"doc", 0, ['a', 'b']⟩)), .background (.finish 0),
          .apply ⟨0⟩ [⟨0, 1, [.replace ⟨⟨0, 0⟩, ⟨0, 0⟩⟩ ['x']]⟩], .apply ⟨0⟩ [⟨5, 6, []⟩],
          .background (.start 1), .background (.answer 1 (some ⟨"doc", 1, ['x', 'a', 'b']⟩)),
          .background (.finish 1)] = some (log, d) ∧
      Run.play? step? d
        [.background (.complete 1),
          .apply ⟨0⟩
            [⟨1, 2, [.replace ⟨⟨0, 0⟩, ⟨0, 1⟩⟩ ['z'], .replace ⟨⟨0, 1⟩, ⟨0, 1⟩⟩ ['w']]⟩],
          .apply ⟨0⟩ [⟨1, 3, [.replace ⟨⟨0, 0⟩, ⟨0, 1⟩⟩ ['y']]⟩], .background (.start 2),
          .background (.answer 2 (some ⟨"doc", 3, ['y', 'a', 'b']⟩)),
          .background (.finish 2)] = some (later, e) ∧
      (∀ m ∈ log ++ later, m.event.isIncremental = true) ∧
      Scheduler.AnswersAgree (fun request snapshot => snapshot.version = request.version)
        (schedulerLog (log ++ later)) ∧
      log.map refusal? = [none, none, none, none, none, some (.missingVersions 1 5), none, none,
        none] ∧
      later.map refusal? = [none, some (.outOfOrder 0 1), none, none, none, none] ∧
      d.latest? = some ⟨"doc", 1, ['x', 'a', 'b']⟩ ∧
      e.latest? = some ⟨"doc", 3, ['y', 'a', 'b']⟩ := by
    refine ⟨_, _, _, _, _, rfl, rfl, rfl, ?_, ?_, rfl, rfl, rfl, rfl⟩
    · decide
    · decide
  obtain ⟨opened, d, e, log, later, opening, hlog, hlater, incremental, stamped, hrefused,
    hrefusedLater, hlatest, hlatestLater⟩ := hplayed
  have baseline : (0 : Version) ≤ 0 := Int32.le_refl 0
  have run := Run.of_play? hlog
  have goesOn := Run.of_play? hlater
  exact ⟨opened, d, e, log, later, opening, baseline, run, goesOn, incremental, stamped, hrefused,
    hrefusedLater, hlatest, hlatestLater,
    published_versions_follow_buffer opening baseline run goesOn incremental stamped⟩

end OpenDocument

end CodeInsight

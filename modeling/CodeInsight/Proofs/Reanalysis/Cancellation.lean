/-
# Cancelling

Cancelling takes back what a scheduler has not published, and no more than that. What
is published stays, and until a pass is scheduled again nothing takes its place. The
passes that were there may go on, finish in any order and come to snapshots of their
own: none of them is left that may publish, and none is between its publishing steps.

Cancelling reaches the pass in flight alone, so all of this rests on the tracking of
passes. A failed pass that is a whole round of the count behind can break it, and then
cancelling comes to nothing (`exists_publication_after_cancel`).
-/

import CodeInsight.Proofs.Reanalysis.InFlight
import CodeInsight.Proofs.Reanalysis.Polling
import CodeInsight.Proofs.Reanalysis.Provenance

namespace CodeInsight

namespace Scheduler

variable {σ : Type} {s t : Scheduler σ} {event : Event σ} {debounce : Nat}
  {log : List (Moment (Scheduler σ) (Event σ))}

@[simp]
theorem cancel_cancel (s : Scheduler σ) : s.cancel.cancel = s.cancel := by
  rw [cancel, live_cancel]

/-- Letting go of a scheduler that was cancelled makes no difference. A document that is closed is
cancelled and then let go of, which comes to cancelling it. -/
@[simp]
theorem dispose_cancel (s : Scheduler σ) : s.cancel.dispose = s.cancel :=
  cancel_cancel s

/-! ## Schedulers that publish nothing more -/

/-- Two schedulers show the same when nobody who reads what is published can tell them apart. -/
structure ShowsSame (s t : Scheduler σ) : Prop where
  published : t.published = s.published
  publishedGeneration : t.publishedGeneration = s.publishedGeneration

theorem ShowsSame.refl (s : Scheduler σ) : s.ShowsSame s := ⟨rfl, rfl⟩

theorem ShowsSame.trans {u : Scheduler σ} (same : s.ShowsSame t) (goesOn : t.ShowsSame u) :
    s.ShowsSame u :=
  ⟨goesOn.published.trans same.published,
    goesOn.publishedGeneration.trans same.publishedGeneration⟩

theorem showsSame_cancel (s : Scheduler σ) : s.ShowsSame s.cancel :=
  ⟨published_cancel s, publishedGeneration_cancel s⟩

/-- A scheduler is silent when none of its passes may still publish, nor is about to make its
generation known. -/
structure Silent (s : Scheduler σ) : Prop where
  free : s.isLocked = false
  spent : ∀ (i : Nat) (p : Pass σ), s.passes[i]? = some p → ¬ p.MayPublish

/-- Cancelling silences a scheduler that keeps track of its passes. -/
theorem Tracking.silent_cancel (tracking : s.Tracking) (free : s.isLocked = false) :
    s.cancel.Silent where
  free := by
    rw [isLocked_eq_false_iff] at free ⊢
    intro i q found hstage
    obtain ⟨p, hp, hsame⟩ := stage_of_getElem?_cancel found
    exact free i p hp (hsame.trans hstage)
  spent _ _ found := tracking.not_mayPublish_cancel found

namespace Silent

/-- A silent scheduler puts no snapshot in place. -/
theorem published (silent : s.Silent) (step : Step s event t) :
    t.published = s.published ∧ publisher? ⟨s, event, t⟩ = none := by
  rcases step.published_cases with
    hsame | ⟨i, p, snapshot, -, -, hfound, hstage, -, hkept, -, -⟩
  · exact hsame
  · exact absurd ⟨hkept, by simp [hstage]⟩ (silent.spent i p hfound)

/-- A silent scheduler shows nothing new, whatever happens to it. -/
theorem showsSame (silent : s.Silent) (step : Step s event t) : s.ShowsSame t where
  published := (silent.published step).1
  publishedGeneration := by
    rcases step.publishedGeneration_cases with hsame | ⟨i, p, hfound, hstage, -⟩
    · exact hsame
    · exact absurd hstage (isLocked_eq_false_iff.mp silent.free i p hfound)

/-- A silent scheduler remains so until a pass is scheduled. -/
theorem step (silent : s.Silent) (step : Step s event t) (quiet : event.isSchedule = false) :
    t.Silent where
  free := by
    rw [isLocked_eq_false_iff]
    intro j q found hstage
    rcases step.publishing_cases found hstage with ⟨p, hp, hpublishing, -⟩ | ⟨p, hpublishes, -⟩
    · exact isLocked_eq_false_iff.mp silent.free j p hp hpublishing
    · cases (silent.published step).2.symm.trans hpublishes
  spent j q found mayPublish := by
    rcases step.origin found with ⟨p, hp, hleads⟩ | ⟨request, rfl, -, -⟩
    · exact silent.spent j p hp (hleads.mayPublish mayPublish)
    · cases quiet

/-- However long a silent scheduler runs on, it shows nothing new until a pass is scheduled. -/
theorem of_run (silent : s.Silent) (run : Run step? s log t)
    (quiet : ∀ m ∈ log, m.event.isSchedule = false) : t.Silent ∧ s.ShowsSame t := by
  induction run with
  | start => exact ⟨silent, .refl s⟩
  | extend prior happens ih =>
      obtain ⟨hquiet, hlast⟩ := List.forall_mem_append.mp quiet
      obtain ⟨hsilent, hsame⟩ := ih hquiet
      have step := step?_eq_some_iff.mp happens
      exact ⟨hsilent.step step (hlast _ (List.mem_singleton_self _)),
        hsame.trans (hsilent.showsSame step)⟩

end Silent

/-! ## A round of the count behind -/

theorem isLocked_schedule (free : s.isLocked = false) (request : Request) :
    (s.schedule request).1.isLocked = false := by
  rw [isLocked_eq_false_iff] at free ⊢
  intro j q found hstage
  rcases (Step.schedule request (isLocked_eq_false_iff.mpr free)).stage_cases found with
    ⟨p, hp, hsame⟩ | hbrings
  · exact free j p hp (hsame.trans hstage)
  · rw [hstage] at hbrings
    exact hbrings

/-- Scheduling leaves the stages of earlier passes alone. -/
theorem exists_stage_of_schedule {i : Nat} {p : Pass σ} (found : s.passes[i]? = some p)
    (request : Request) : ∃ q, (s.schedule request).1.passes[i]? = some q ∧ q.stage = p.stage := by
  obtain ⟨q, hq, -⟩ := cancel_leads found
  obtain ⟨p', hp', hstage⟩ := stage_of_getElem?_cancel hq
  cases found.symm.trans hp'
  have hi : i < s.cancel.passes.size := (Array.getElem?_eq_some_iff.mp hq).1
  refine ⟨q, ?_, hstage.symm⟩
  rw [passes_schedule, Array.getElem?_push, if_neg (Nat.ne_of_lt hi), hq]

/-- Any number of passes may be scheduled while an earlier one stays as far as it is. -/
theorem exists_run_of_schedules {i : Nat} {p : Pass σ} (free : s.isLocked = false)
    (found : s.passes[i]? = some p) (request : Request) (n : Nat) :
    ∃ log t q, Run step? s log t ∧ t.passes.size = s.passes.size + n ∧ t.isLocked = false ∧
      t.passes[i]? = some q ∧ q.stage = p.stage := by
  induction n with
  | zero => exact ⟨[], s, p, .start, rfl, free, found, rfl⟩
  | succ n ih =>
      obtain ⟨log, t, q, hrun, hsize, hfree, hq, hstage⟩ := ih
      obtain ⟨r, hr, hsame⟩ := exists_stage_of_schedule hq request
      refine ⟨_, _, r, hrun.extend (step?_eq_some_iff.mpr (.schedule request hfree)), ?_,
        isLocked_schedule hfree request, hr, hsame.trans hstage⟩
      rw [passes_schedule, Array.size_push, size_cancel, hsize]
      rfl

/-- A waiting pass that is of the current generation and not cancelled can go on to publish. -/
theorem exists_run_of_waiting {i : Nat} {p : Pass σ} (free : s.isLocked = false)
    (found : s.passes[i]? = some p) (stage : p.stage = .waiting) (kept : p.cancelled = false)
    (current : s.generation = p.generation) (snapshot : σ) :
    ∃ log t, Run step? s log t ∧ (∀ m ∈ log, m.event.isSchedule = false) ∧
      t.published = s.published.publish snapshot := by
  have hanalyzing := getElem?_enter_self .analyzing found
  have hreturned := getElem?_enter_self (.returned (some snapshot)) hanalyzing
  have hfree : ((s.enter i .analyzing).enter i (.returned (some snapshot))).isLocked = false :=
    isLocked_enter nofun (isLocked_enter nofun free)
  have hstart : Step s (.start i) (s.enter i .analyzing) := .start found stage
  have hanswer := Step.answer (some snapshot) hanalyzing rfl
  have hfinish := Step.publish hfree hreturned rfl current kept
  refine ⟨_, _, ((Run.start.extend (step?_eq_some_iff.mpr hstart)).extend
    (step?_eq_some_iff.mpr hanswer)).extend (step?_eq_some_iff.mpr hfinish), ?_, rfl⟩
  simp [Event.isSchedule]

/-- After 2^64 more passes, the newest one is of the generation of the first again, which may have
failed and not have finished yet. -/
theorem exists_run_around (request : Request) :
    ∃ (log : List (Moment (Scheduler σ) (Event σ))) (s : Scheduler σ) (p q : Pass σ),
      Run step? (create 0) log s ∧ s.passes.size = 2 ^ 64 + 1 ∧ s.isLocked = false ∧
        s.passes[0]? = some p ∧ p.stage = .returned none ∧ s.generation = p.generation ∧
        s.passes[2 ^ 64]? = some q ∧ q.stage = .waiting ∧ q.cancelled = false ∧
        s.generation = q.generation := by
  obtain ⟨log, s, hplayed, hone, hfree, hfirst⟩ : ∃ log s,
      Run.play? step? (create 0 : Scheduler σ) [.schedule request, .start 0, .answer 0 none] =
        some (log, s) ∧ s.passes.size = 1 ∧ s.isLocked = false ∧
        s.passes[0]? = some ⟨1, request, false, .returned none, none⟩ :=
    ⟨_, _, rfl, rfl, rfl, rfl⟩
  obtain ⟨more, t, p, hmore, hsize, hfree, hp, hstage⟩ :=
    exists_run_of_schedules hfree hfirst request (2 ^ 64 - 1)
  have hround : t.passes.size = 2 ^ 64 := by omega
  have hschedule : Step t (.schedule request) (t.schedule request).1 := .schedule request hfree
  have run := ((Run.of_play? hplayed).append hmore).extend (step?_eq_some_iff.mpr hschedule)
  have numbered := numbered_of_run run (numbered_create 0)
  have hsize : (t.schedule request).1.passes.size = 2 ^ 64 + 1 := by
    rw [passes_schedule, Array.size_push, size_cancel, hround]
  obtain ⟨first, hfirst, hfailed⟩ := exists_stage_of_schedule hp request
  have hnewest : (t.schedule request).1.passes[2 ^ 64]? =
      some ⟨t.generation + 1, request, false, .waiting, none⟩ := by
    rw [passes_schedule, Array.getElem?_push, size_cancel, hround, if_pos rfl]
  refine ⟨_, _, first, _, run, hsize, isLocked_schedule hfree request, hfirst,
    hfailed.trans hstage, ?_, hnewest, rfl, rfl, rfl⟩
  rw [numbered.generation, numbered.passes 0 first hfirst, hsize]
  rfl

/-- Generations are counted in 64 bits. A first pass that fails once 2^64 others were scheduled
takes the newest one out of flight. Cancelling does not reach it then, and it publishes. -/
theorem exists_publication_after_cancel (request : Request) (snapshot : σ) :
    ∃ (log later : List (Moment (Scheduler σ) (Event σ))) (s t : Scheduler σ),
      Run step? (create 0) log s ∧ s.passes.size = 2 ^ 64 + 1 ∧ s.isLocked = false ∧
        Run step? s.cancel later t ∧ (∀ m ∈ later, m.event.isSchedule = false) ∧
        t.published ≠ s.published := by
  obtain ⟨log, s, p, q, hrun, hsize, hfree, hp, hfailed, hfirst, hq, hwaiting, hkept, hnewest⟩ :=
    @exists_run_around σ request
  have hfail := Step.fail hfree hp hfailed hfirst
  have hnumber : 0 ≠ 2 ^ 64 := by decide
  have hfound : (s.enter 0 (.ended .failed)).passes[2 ^ 64]? = some q :=
    (getElem?_enter_of_ne _ hnumber).trans hq
  have hlock : (s.enter 0 (.ended .failed)).isLocked = false := isLocked_enter nofun hfree
  obtain ⟨later, t, hlater, hquiet, hpublished⟩ :=
    exists_run_of_waiting (s := { s.enter 0 (.ended .failed) with live := none }) hlock hfound
      hwaiting hkept hnewest snapshot
  refine ⟨_, later, _, t, hrun.extend (step?_eq_some_iff.mpr hfail), ?_, hlock, hlater, hquiet, ?_⟩
  · exact (size_enter s 0 _).trans hsize
  · rw [hpublished]
    exact fun hsame => Nat.succ_ne_self _ (congrArg Publication.revision hsame)

end Scheduler

end CodeInsight

/-
# Pending passes

Whether a pass is pending is answered from the pass in flight alone, and the answer is
the truth about everything that has happened: the newest pass is pending until it has
published, has failed or has been cancelled. Passes that it has superseded may fail,
succeed or stop as late as they like. What they do makes no difference to it.

What carries the argument is that nothing but one of the three ends of the newest pass
takes it out of flight, and that none of the three can come before its scheduling.
-/

import CodeInsight.Proofs.Reanalysis.InFlight

namespace CodeInsight

namespace Scheduler

variable {σ : Type} {s t : Scheduler σ} {event : Event σ} {debounce : Nat} {i : Nat}
  {log : List (Moment (Scheduler σ) (Event σ))}

/-- `Decides i m` says that at the moment `m` the pass with the number `i` publishes or fails, or the
host cancels it. -/
inductive Decides (i : Nat) : Moment (Scheduler σ) (Event σ) → Prop
  | publishes {s t : Scheduler σ} (replaced : t.published ≠ s.published) :
      Decides i ⟨s, .finish i, t⟩
  | fails {s t : Scheduler σ} {p : Pass σ} (found : s.passes[i]? = some p)
      (stage : p.stage = .returned none) : Decides i ⟨s, .finish i, t⟩
  | cancelled {s t : Scheduler σ} (scheduled : i < s.passes.size) : Decides i ⟨s, .cancel, t⟩

/-- Nothing is decided about a pass before it is scheduled. -/
theorem Decides.scheduled {m : Moment (Scheduler σ) (Event σ)} (decides : Decides i m)
    (happens : m.before.step? m.event = some m.after) : i < m.before.passes.size := by
  cases decides with
  | publishes replaced =>
      rcases (step?_eq_some_iff.mp happens).published_cases with
        ⟨hsame, -⟩ | ⟨j, p, snapshot, -, hfinish, hfound, -⟩
      · exact absurd hsame replaced
      · cases hfinish
        exact (Array.getElem?_eq_some_iff.mp hfound).1
  | fails found stage => exact (Array.getElem?_eq_some_iff.mp found).1
  | cancelled scheduled => exact scheduled

/-- The newest pass stays in flight until something decides about it. -/
theorem Step.live_newest_iff (step : Step s event t) (numbered : s.Numbered) (inTime : s.InTime)
    (tracking : s.Tracking) (quiet : event.isSchedule = false) (newest : i + 1 = s.passes.size) :
    t.live = some i ↔ s.live = some i ∧ ¬ Decides i ⟨s, event, t⟩ := by
  cases step with
  | schedule => cases quiet
  | cancel free =>
      rw [live_cancel]
      exact ⟨nofun, fun ⟨_, hundecided⟩ => absurd (.cancelled (by omega)) hundecided⟩
  | @fail j p free found stage current =>
      obtain rfl : j = i := by
        have hj := numbered.eq_newest found (inTime j p found stage) current
        omega
      exact ⟨nofun, fun ⟨_, hundecided⟩ => absurd (.fails found stage) hundecided⟩
  | @publish j p snapshot free found stage current kept =>
      obtain rfl : j = i := by
        have hlive := tracking.inFlight j p found ⟨kept, by simp [stage]⟩
        have hj := tracking.newest j hlive
        omega
      refine ⟨nofun, fun ⟨_, hundecided⟩ => absurd (.publishes ?_) hundecided⟩
      exact fun hsame => Nat.succ_ne_self _ (congrArg Publication.revision hsame)
  | failLate free found stage superseded =>
      refine (and_iff_left fun decides => ?_).symm
      cases decides with
      | publishes replaced => exact replaced rfl
      | fails => exact superseded (numbered.generation_newest found newest)
  | discard free found stage late =>
      refine (and_iff_left fun decides => ?_).symm
      cases decides with
      | publishes replaced => exact replaced rfl
      | fails hfound hstage =>
          cases found.symm.trans hfound
          cases stage.symm.trans hstage
  | _ => exact (and_iff_left nofun).symm

/-- In any run, the newest pass is in flight until something has decided about it. -/
theorem live_newest_iff_of_run (run : Run step? (create debounce) log s)
    (inTime : ∀ m ∈ log, m.before.InTime) (newest : i + 1 = s.passes.size) :
    s.live = some i ↔ ∀ m ∈ log, ¬ Decides i m := by
  induction run with
  | start => cases newest
  | @extend log s t event prior happens ih =>
      obtain ⟨hearlier, hlast⟩ := List.forall_mem_append.mp inTime
      have step := step?_eq_some_iff.mp happens
      have hsize := step.size_passes
      cases hquiet : event.isSchedule with
      | false =>
          rw [hquiet] at hsize
          have hnewest : i + 1 = s.passes.size := newest.trans hsize
          rw [step.live_newest_iff (numbered_of_run prior (numbered_create debounce))
            (hlast _ (List.mem_singleton_self _)) (tracking_of_run prior hearlier) hquiet hnewest,
            ih hearlier hnewest, List.forall_mem_append, List.forall_mem_singleton]
      | true =>
          rw [hquiet] at hsize
          have hi : i = s.passes.size := Nat.succ.inj (newest.trans hsize)
          have hundecided : ∀ m ∈ log ++ [⟨s, event, t⟩], ¬ Decides i m := by
            intro m hm decides
            have hscheduled := decides.scheduled ((prior.extend happens).happens_of_mem hm)
            rcases List.mem_append.mp hm with hm | hm
            · have hbefore := size_passes_le_of_mem prior hm
              omega
            · rw [List.mem_singleton.mp hm] at hscheduled
              exact Nat.lt_irrefl _ (hi ▸ hscheduled)
          refine iff_of_true ?_ hundecided
          cases step with
          | schedule request free => rw [hi]; exact congrArg some (size_cancel s)
          | _ => cases hquiet

/-- What a superseded pass does leaves the pass in flight as it is. -/
theorem Step.live_of_superseded {p : Pass σ} (step : Step s event t) (byPass : event.pass? = some i)
    (found : s.passes[i]? = some p) (superseded : p.generation ≠ s.generation) :
    t.live = s.live := by
  cases step with
  | schedule | cancel => cases byPass
  | fail free hfound stage current =>
      cases byPass
      cases found.symm.trans hfound
      exact absurd current.symm superseded
  | publish free hfound stage current kept =>
      cases byPass
      cases found.symm.trans hfound
      exact absurd current.symm superseded
  | _ => rfl

/-- **A pass is pending until something decides about it.** In any run, some pass is pending if and
only if there is a pass of the current generation that has neither published nor failed nor been
cancelled. No step of a superseded pass makes a difference to which pass this is. If no analysis
cancels its own pass, then none that has come to its end is in flight. -/
theorem isPending_iff_undecided (run : Run step? (create debounce) log s)
    (few : log.countP (·.event.isSchedule) < 2 ^ 64) :
    (s.isPending = true ↔
      ∃ (i : Nat) (p : Pass σ), s.passes[i]? = some p ∧ p.generation = s.generation ∧
        ∀ m ∈ log, ¬ Decides i m) ∧
    (∀ m ∈ log, ∀ (i : Nat) (p : Pass σ), m.event.pass? = some i →
      m.before.passes[i]? = some p → p.generation ≠ m.before.generation →
        m.after.live = m.before.live) ∧
    ((∀ m ∈ log, m.event.isRevoke = false) →
      ∀ (i : Nat) (p : Pass σ) (how : PassEnd), s.passes[i]? = some p →
        p.stage = .ended how → s.live ≠ some i) := by
  have hsize : s.passes.size = log.countP (·.event.isSchedule) := by
    simpa [create] using size_passes_of_run run
  have hfew : s.passes.size < 2 ^ 64 := hsize ▸ few
  have inTime := inTime_of_run run hfew
  have numbered := numbered_of_run run (numbered_create debounce)
  have tracking := tracking_of_run run inTime
  refine ⟨?_, ?_, ?_⟩
  · rw [isPending, Option.isSome_iff_exists]
    constructor
    · rintro ⟨i, hlive⟩
      have hnewest := tracking.newest i hlive
      have hlt : i < s.passes.size := by omega
      have hfound := Array.getElem?_eq_getElem hlt
      exact ⟨i, s.passes[i], hfound, (numbered.generation_newest hfound hnewest).symm,
        (live_newest_iff_of_run run inTime hnewest).mp hlive⟩
    · rintro ⟨i, p, hfound, hcurrent, hundecided⟩
      have hnewest := numbered.eq_newest hfound (by omega) hcurrent.symm
      exact ⟨i, (live_newest_iff_of_run run inTime hnewest).mpr hundecided⟩
  · intro m hm i p hpass hfound hsuperseded
    exact (step?_eq_some_iff.mp (run.happens_of_mem hm)).live_of_superseded hpass hfound hsuperseded
  · intro hunrevoked i p how hfound hended hlive
    obtain ⟨q, hq, hmayPublish⟩ := liveMayPublish_of_run run inTime hunrevoked i hlive
    cases hfound.symm.trans hq
    have hbefore := hmayPublish.before
    simp [hended] at hbefore

/-- The first pass is superseded and fails late. The second remains pending, and is in flight. -/
theorem pending_after_superseded_failure :
    ∃ (log : List (Moment (Scheduler Nat) (Event Nat))) (s : Scheduler Nat),
      Run step? (create 0) log s ∧ log.countP (·.event.isSchedule) < 2 ^ 64 ∧
        (∀ m ∈ log, m.event.isRevoke = false) ∧
        log.map (·.after.live) = [some 0, some 0, some 1, some 1, some 1, some 1] ∧
        s.passes.toList.map (·.stage) = [.ended .failed, .analyzing] ∧ s.isPending = true ∧
        (∃ (i : Nat) (p : Pass Nat), s.passes[i]? = some p ∧ p.generation = s.generation ∧
          ∀ m ∈ log, ¬ Decides i m) ∧
        s.live ≠ some 0 := by
  have hplayed : ∃ log s, Run.play? step? (create 0 : Scheduler Nat)
      [.schedule ⟨"a", 1, []⟩, .start 0, .schedule ⟨"a", 2, []⟩, .answer 0 none, .start 1,
        .finish 0] = some (log, s) ∧
      log.countP (·.event.isSchedule) = 2 ∧
      (log.all fun m => !m.event.isRevoke) = true ∧
      log.map (·.after.live) = [some 0, some 0, some 1, some 1, some 1, some 1] ∧
      s.passes.toList.map (·.stage) = [.ended .failed, .analyzing] ∧ s.isPending = true ∧
      s.passes[0]? = some ⟨1, ⟨"a", 1, []⟩, true, .ended .failed, none⟩ := by
    refine ⟨_, _, rfl, ?_, ?_, ?_, ?_, ?_, ?_⟩ <;> rfl
  obtain ⟨log, s, hlog, hcount, hrevokes, hlive, hstages, hpending, hfirst⟩ := hplayed
  have run := Run.of_play? hlog
  have few : log.countP (·.event.isSchedule) < 2 ^ 64 := by rw [hcount]; decide
  have unrevoked : ∀ m ∈ log, m.event.isRevoke = false := by simpa using hrevokes
  obtain ⟨hiff, -, hended⟩ := isPending_iff_undecided run few
  exact ⟨log, s, run, few, unrevoked, hlive, hstages, hpending, hiff.mp hpending,
    hended unrevoked 0 _ .failed hfirst rfl⟩

end Scheduler

end CodeInsight

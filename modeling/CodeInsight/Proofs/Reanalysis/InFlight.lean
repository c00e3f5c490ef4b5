/-
# The pass in flight

A scheduler has at most one pass in flight, and cancelling reaches no other. Any number
of older passes may be running all the while. None of them is left to publish: a pass
that may still do so is in flight, and only the newest is.

Generations are counted in a word, so that a pass which is a whole round of the count
behind has the generation of the newest one again. If its analysis has failed, it takes
the newest pass for itself. No run gets that far in practice, and `Scheduler.InTime` says
that none of the passes with a failed analysis is so late.
-/

import CodeInsight.Proofs.Reanalysis.Supersession

namespace CodeInsight

variable {σ : Type}

/-- A pass may still publish when it is not cancelled and neither publishing nor at its end. -/
structure Pass.MayPublish (p : Pass σ) : Prop where
  kept : p.cancelled = false
  before : p.stage.rank < Stage.rank (.publishing : Stage σ)

/-- A pass that may publish later on may do so now. -/
theorem Pass.Leads.mayPublish {p q : Pass σ} (leads : p.Leads q) (later : q.MayPublish) :
    p.MayPublish where
  kept := by
    cases hcancelled : p.cancelled with
    | false => rfl
    | true => exact absurd (leads.cancelled hcancelled) (ne_true_of_eq_false later.kept)
  before := Nat.lt_of_le_of_lt leads.rank_le later.before

namespace Scheduler

variable {s t : Scheduler σ} {event : Event σ} {debounce : Nat}
  {log : List (Moment (Scheduler σ) (Event σ))}

/-- Of the passes whose analysis has failed none is 2^64 passes behind. -/
def InTime (s : Scheduler σ) : Prop :=
  ∀ (i : Nat) (p : Pass σ), s.passes[i]? = some p → p.stage = .returned none →
    s.passes.size ≤ i + 2 ^ 64

theorem inTime_of_few (few : s.passes.size < 2 ^ 64) : s.InTime :=
  fun i _ _ _ => Nat.le_trans (Nat.le_of_lt few) (Nat.le_add_left _ i)

theorem inTime_create (debounce : Nat) : (create debounce : Scheduler σ).InTime :=
  inTime_of_few (Nat.two_pow_pos 64)

/-- A pass of the current generation is the newest one, if it is not a round of the count behind. -/
theorem Numbered.eq_newest {i : Nat} {p : Pass σ} (numbered : s.Numbered)
    (found : s.passes[i]? = some p) (near : s.passes.size ≤ i + 2 ^ 64)
    (current : s.generation = p.generation) : i + 1 = s.passes.size := by
  have hlt : i < s.passes.size := (Array.getElem?_eq_some_iff.mp found).1
  rw [numbered.generation, numbered.passes i p found, ← UInt64.toNat_inj, UInt64.toNat_ofNat',
    UInt64.toNat_ofNat'] at current
  omega

/-- The newest pass is of the current generation. -/
theorem Numbered.generation_newest {i : Nat} {p : Pass σ} (numbered : s.Numbered)
    (found : s.passes[i]? = some p) (newest : i + 1 = s.passes.size) :
    s.generation = p.generation := by
  rw [numbered.generation, numbered.passes i p found, newest]

/-! ## What may still publish is in flight -/

/-- A scheduler keeps track of its passes: only the newest can be in flight, and whatever may still
publish is. -/
structure Tracking (s : Scheduler σ) : Prop where
  newest : ∀ i, s.live = some i → i + 1 = s.passes.size
  inFlight : ∀ (i : Nat) (p : Pass σ), s.passes[i]? = some p → p.MayPublish → s.live = some i

theorem tracking_create (debounce : Nat) : (create debounce : Scheduler σ).Tracking :=
  ⟨nofun, fun i p found => by simp [create] at found⟩

@[simp]
theorem live_cancel (s : Scheduler σ) : s.cancel.live = none := by
  unfold cancel
  split
  · assumption
  · rfl

/-- After cancelling, no pass may publish any more. -/
theorem Tracking.not_mayPublish_cancel {i : Nat} {q : Pass σ} (tracking : s.Tracking)
    (found : s.cancel.passes[i]? = some q) : ¬ q.MayPublish := by
  intro mayPublish
  cases hlive : s.live with
  | none =>
      simp only [cancel, hlive] at found
      cases hlive.symm.trans (tracking.inFlight i q found mayPublish)
  | some j =>
      simp only [cancel, hlive] at found
      rw [getElem?_modifyPass] at found
      split at found
      · obtain ⟨p, -, rfl⟩ := Option.map_eq_some_iff.mp found
        cases mayPublish.kept
      · rename_i hij
        exact hij (Option.some.inj (hlive.symm.trans (tracking.inFlight i q found mayPublish)))

/-- A pass that may publish after a step was in flight before it, or the step has scheduled it. -/
theorem Step.inFlight_cases {j : Nat} {q : Pass σ} (step : Step s event t)
    (tracking : s.Tracking) (found : t.passes[j]? = some q) (mayPublish : q.MayPublish) :
    s.live = some j ∨ event.isSchedule = true ∧ j = s.passes.size := by
  rcases step.origin found with ⟨p, hp, hleads⟩ | ⟨request, rfl, hj, -⟩
  · exact .inl (tracking.inFlight j p hp (hleads.mayPublish mayPublish))
  · exact .inr ⟨rfl, hj⟩

theorem Step.tracking (step : Step s event t) (numbered : s.Numbered) (inTime : s.InTime)
    (tracking : s.Tracking) : t.Tracking where
  newest i hlive := by
    cases step with
    | schedule request free =>
        cases hlive
        simp [passes_schedule]
    | cancel free => rw [live_cancel] at hlive; cases hlive
    | fail | publish => cases hlive
    | revoke | delay => rw [size_modifyPass]; exact tracking.newest i hlive
    | start | abandon | answer | failLate | discard | complete =>
        rw [size_enter]; exact tracking.newest i hlive
  inFlight j q found mayPublish := by
    have hbefore := step.inFlight_cases tracking found mayPublish
    cases step with
    | schedule request free =>
        rcases hbefore with hlive | ⟨-, rfl⟩
        · -- The pass that was in flight is cancelled now.
          have hj := tracking.newest j hlive
          have hne : j ≠ s.cancel.passes.size := by rw [size_cancel]; omega
          rw [passes_schedule, Array.getElem?_push, if_neg hne] at found
          exact absurd mayPublish (tracking.not_mayPublish_cancel found)
        · exact congrArg some (size_cancel s)
    | cancel free => exact absurd mayPublish (tracking.not_mayPublish_cancel found)
    | @fail i p free hfound stage current =>
        obtain hlive | ⟨hschedule, -⟩ := hbefore
        · -- Both passes are the newest, so the one that may publish has just failed.
          have hi := numbered.eq_newest hfound (inTime i p hfound stage) current
          have hj := tracking.newest j hlive
          obtain rfl : i = j := by omega
          cases (getElem?_enter_self _ hfound).symm.trans found
          exact absurd mayPublish.before (by simp)
        · cases hschedule
    | @publish i p snapshot free hfound stage current kept =>
        obtain hlive | ⟨hschedule, -⟩ := hbefore
        · have hpublisher := tracking.inFlight i p hfound ⟨kept, by simp [stage]⟩
          obtain rfl : i = j := Option.some.inj (hpublisher.symm.trans hlive)
          cases (getElem?_enter_self _ hfound).symm.trans found
          exact absurd mayPublish.before (by simp)
        · cases hschedule
    | _ =>
        obtain hlive | ⟨hschedule, -⟩ := hbefore
        · exact hlive
        · cases hschedule

/-! ## What is in flight may still publish -/

/-- The pass in flight has not come to its end. An analysis that cancels its own pass can break
this: the pass is discarded then, and remains in flight. -/
def LiveMayPublish (s : Scheduler σ) : Prop :=
  ∀ i, s.live = some i → ∃ p, s.passes[i]? = some p ∧ p.MayPublish

/-- Whether the analysis of a pass cancels the pass itself. -/
def Event.isRevoke : Event σ → Bool
  | .revoke _ => true
  | _ => false

theorem liveMayPublish_create (debounce : Nat) :
    (create debounce : Scheduler σ).LiveMayPublish :=
  nofun

namespace LiveMayPublish

/-- A change that keeps a pass able to publish, if it is the one in flight. -/
theorem modifyPass (live : s.LiveMayPublish) {i : Nat} {change : Pass σ → Pass σ}
    (allowed : ∀ p, s.live = some i → s.passes[i]? = some p → p.MayPublish →
      (change p).MayPublish) : (s.modifyPass i change).LiveMayPublish := by
  intro j hlive
  obtain ⟨p, hfound, hp⟩ := live j hlive
  by_cases hij : i = j
  · subst hij
    refine ⟨change p, ?_, allowed p hlive hfound hp⟩
    rw [getElem?_modifyPass, if_pos rfl, hfound, Option.map_some]
  · refine ⟨p, ?_, hp⟩
    rw [getElem?_modifyPass, if_neg hij, hfound]

/-- A pass enters a stage before publishing, or it is not the one in flight. -/
theorem enter (live : s.LiveMayPublish) {i : Nat} {stage : Stage σ}
    (allowed : ∀ p, s.live = some i → s.passes[i]? = some p → p.MayPublish →
      stage.rank < Stage.rank (.publishing : Stage σ)) : (s.enter i stage).LiveMayPublish :=
  live.modifyPass fun p hlive hfound hp => ⟨hp.kept, allowed p hlive hfound hp⟩

end LiveMayPublish

theorem Step.liveMayPublish (step : Step s event t) (numbered : s.Numbered)
    (tracking : s.Tracking) (live : s.LiveMayPublish) (unrevoked : event.isRevoke = false) :
    t.LiveMayPublish := by
  cases step with
  | schedule request free =>
      intro j hlive
      cases hlive
      refine ⟨⟨s.generation + 1, request, false, .waiting, none⟩, ?_, rfl, by simp⟩
      rw [passes_schedule, Array.getElem?_push, if_pos rfl]
  | cancel free =>
      intro j hlive
      rw [live_cancel] at hlive
      cases hlive
  | revoke i => cases unrevoked
  | delay i due => exact live.modifyPass fun p _ _ hp => ⟨hp.kept, hp.before⟩
  | start found stage => exact live.enter fun _ _ _ _ => by simp
  | answer result found stage => exact live.enter fun _ _ _ _ => by simp
  | abandon found cancelled stage =>
      refine live.enter fun p hlive hfound hp => ?_
      cases found.symm.trans hfound
      cases cancelled.symm.trans hp.kept
  | failLate free found stage superseded =>
      refine live.enter fun p hlive hfound hp => ?_
      exact absurd (numbered.generation_newest found (tracking.newest _ hlive)) superseded
  | discard free found stage late =>
      refine live.enter fun p hlive hfound hp => ?_
      rcases late with superseded | cancelled
      · exact absurd (numbered.generation_newest found (tracking.newest _ hlive)) superseded
      · cases found.symm.trans hfound
        cases cancelled.symm.trans hp.kept
  | complete found stage =>
      refine LiveMayPublish.enter live fun p hlive hfound hp => ?_
      cases found.symm.trans hfound
      exact absurd hp.before (by simp [stage])
  | fail | publish => exact nofun

/-! ## Runs -/

/-- Passes are never forgotten in the course of a run. -/
theorem size_passes_le_of_mem (run : Run step? s log t) {m : Moment (Scheduler σ) (Event σ)}
    (hm : m ∈ log) : m.before.passes.size ≤ t.passes.size := by
  induction run with
  | start => cases hm
  | extend prior happens ih =>
      have hstep := (step?_eq_some_iff.mp happens).size_passes
      rcases List.mem_append.mp hm with hm | hm
      · exact Nat.le_trans (ih hm) (hstep ▸ Nat.le_add_right _ _)
      · rw [List.mem_singleton.mp hm]
        exact hstep ▸ Nat.le_add_right _ _

theorem tracking_of_run (run : Run step? (create debounce) log s)
    (inTime : ∀ m ∈ log, m.before.InTime) : s.Tracking := by
  induction run with
  | start => exact tracking_create debounce
  | extend prior happens ih =>
      obtain ⟨hearlier, hlast⟩ := List.forall_mem_append.mp inTime
      exact (step?_eq_some_iff.mp happens).tracking (numbered_of_run prior (numbered_create debounce))
        (hlast _ (List.mem_singleton_self _)) (ih hearlier)

theorem inTime_of_run (run : Run step? s log t) (few : t.passes.size < 2 ^ 64) :
    ∀ m ∈ log, m.before.InTime :=
  fun _ hm => inTime_of_few (Nat.lt_of_le_of_lt (size_passes_le_of_mem run hm) few)

theorem liveMayPublish_of_run (run : Run step? (create debounce) log s)
    (inTime : ∀ m ∈ log, m.before.InTime) (unrevoked : ∀ m ∈ log, m.event.isRevoke = false) :
    s.LiveMayPublish := by
  induction run with
  | start => exact liveMayPublish_create debounce
  | extend prior happens ih =>
      obtain ⟨hearlier, -⟩ := List.forall_mem_append.mp inTime
      obtain ⟨hunrevoked, hlast⟩ := List.forall_mem_append.mp unrevoked
      exact (step?_eq_some_iff.mp happens).liveMayPublish
        (numbered_of_run prior (numbered_create debounce)) (tracking_of_run prior hearlier)
        (ih hearlier hunrevoked) (hlast _ (List.mem_singleton_self _))

end Scheduler

end CodeInsight
